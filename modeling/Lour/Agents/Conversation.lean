import Lour.Agents.Completion
import Lour.Memory.Manager
/-!
# What the turns of a conversation know of each other

The threads are driven node by node and share one memory: `memory_recall` reads it, and
`memory_write` writes it.  Whatever the order in which their nodes are executed, a turn
is handed the most recent part of what its session had said by then.
-/

namespace Lour.Agents

open Lour.Core Lour.Lib Lour.Lib.Python Lour.Memory

/-- The threads, each where its run stands, and the stores of the memory. -/
structure Chats where
  threads : String → Option SupervisorConfig := fun _ => none
  stores : SessionStores := {}

/-- The request for the next node of a thread, and what the memory meets there. -/
structure NodeCall where
  threadId : String
  request : Request Env Json
  longTerm : List MemoryItem := []
  writing : ℕ → Meets

/-- A turn comes in (its requests come one by one), or a thread takes its next node. -/
inductive ChatCall where
  | chat (turn : Turn)
  | node (call : NodeCall)

inductive ChatEvent where
  | recalled (threadId sessionId query : String) (context : MemoryContext)
  | saved (entry : Saved)
  | finished (threadId : String) (final : AgentState)

/-- The channels of the parent graph, which the checkpoint of a thread keeps. -/
def parentState : SupervisorConfig → AgentState
  | .top c => c.state
  | .within _ s _ => s

/-- `memory_recall` is answered with the context. -/
def recalling (context : MemoryContext) : Request Env Json → Request Env Json
  | .exec env => .exec { env with recalled := fun _ _ => context }
  | .resume value env => .resume value { env with recalled := fun _ _ => context }

/-- A run at `memory_recall` is handed what the memory has of its session. -/
def prepare (self : ShortTermMemory) (stores : SessionStores) (call : NodeCall) :
    SupervisorConfig → Option (Request Env Json × List ChatEvent)
  | .top (.ready .memoryRecall s) =>
      (self.memoryRecall stores s.sessionId call.longTerm).map fun context =>
        (recalling context call.request,
          [.recalled call.threadId s.sessionId s.query context])
  | _ => some (call.request, [])

def NodeCall.writes (self : NodeCall) (out : List Emission) : List (String × WriteCall) :=
  (memoryWrites out).zipIdx.map fun ((sessionId, role, content), i) =>
    (sessionId, ⟨⟨role, content⟩, (self.writing i).collaborators, (self.writing i).raises⟩)

def finishing (threadId : String) : SupervisorConfig → List ChatEvent
  | .top (.ended t) => [.finished threadId t]
  | _ => []

def Chats.node (self : Chats) (memory : ShortTermMemory) (deps : Deps) (call : NodeCall) :
    Option (Chats × List ChatEvent) :=
  (self.threads call.threadId).bind fun C =>
    (prepare memory self.stores call C).bind fun (request, recalled) =>
      ((supervisor deps).step C request).bind fun (C', items) =>
        ((saveSystem memory).run self.stores (call.writes (emissions items))).map
          fun (stores, saved) =>
            (⟨Function.update self.threads call.threadId (some C'), stores⟩,
              recalled ++ saved.map .saved ++ finishing call.threadId C')

/-- A turn that is refused before its run has begun changes nothing. -/
def Chats.chat (self : Chats) (deps : Deps) (turn : Turn) : Chats :=
  match turn.seed with
  | .error _ => self
  | .ok seed =>
      let stored := (self.threads turn.threadId).map parentState
      let C := (supervisor deps).start (enterThread stored seed)
      { self with threads := Function.update self.threads turn.threadId (some C) }

def chatSystem (memory : ShortTermMemory) (deps : Deps) : System Chats ChatCall ChatEvent :=
  ⟨fun chats call =>
    match call with
    | .chat turn => some (chats.chat deps turn, [])
    | .node call => chats.node memory deps call⟩

/-! ## Reading the events -/

def savedOf (events : List ChatEvent) : List Saved :=
  events.filterMap fun
    | .saved entry => some entry
    | _ => none

def finalsOf (events : List ChatEvent) : List AgentState :=
  events.filterMap fun
    | .finished _ final => some final
    | _ => none

/-- What a thread has been handed last: for which session and query, and the context. -/
def lastRecalled (threadId : String) (events : List ChatEvent) :
    Option (String × String × MemoryContext) :=
  (events.filterMap fun
    | .recalled name sessionId query context =>
        if name = threadId then some (sessionId, query, context) else none
    | _ => none).getLast?

def Saved.written (self : Saved) : String × String × String :=
  (self.sessionId, self.turn.role, self.turn.content)

/-- A recall finds the most recent turns that its session had saved before, and the
summary of the others; a turn finishes with the context it was handed, in the session and
with the query that it was handed it for. -/
def Due (memory : ShortTermMemory) (before : List ChatEvent) : ChatEvent → Prop
  | .recalled _ sessionId _ context =>
      context.recent = (saidIn sessionId (savedOf before)).rtake memory.window ∧
        context.summary = latest none (summarisedIn sessionId (savedOf before))
  | .saved _ => True
  | .finished threadId final =>
      ∃ context, final.memoryContext = some context ∧
        lastRecalled threadId before = some (final.sessionId, final.query, context)

section Events

theorem savedOf_append (xs ys : List ChatEvent) : savedOf (xs ++ ys) = savedOf xs ++ savedOf ys :=
  List.filterMap_append

theorem finalsOf_append (xs ys : List ChatEvent) :
    finalsOf (xs ++ ys) = finalsOf xs ++ finalsOf ys :=
  List.filterMap_append

theorem savedOf_map (saved : List Saved) : savedOf (saved.map .saved) = saved := by
  unfold savedOf
  rw [List.filterMap_map]
  exact List.filterMap_some

theorem finalsOf_map (saved : List Saved) : finalsOf (saved.map .saved) = [] := by
  unfold finalsOf
  rw [List.filterMap_map]
  exact List.filterMap_eq_nil_iff.mpr fun _ _ => rfl

/-- Events that recall nothing for the thread leave what it was handed last. -/
theorem lastRecalled_append {threadId : String} {events out : List ChatEvent}
    (h : lastRecalled threadId out = none) :
    lastRecalled threadId (events ++ out) = lastRecalled threadId events := by
  unfold lastRecalled at *
  rw [List.filterMap_append, List.getLast?_eq_none_iff.mp h, List.append_nil]

theorem lastRecalled_recalled (threadId sessionId query : String) (context : MemoryContext)
    (events : List ChatEvent) :
    lastRecalled threadId (events ++ [.recalled threadId sessionId query context]) =
      some (sessionId, query, context) := by
  unfold lastRecalled
  rw [List.filterMap_append]
  simp

theorem finishing_cases (threadId : String) (C : SupervisorConfig) :
    (∃ t, C = .top (.ended t) ∧ finishing threadId C = [.finished threadId t]) ∨
      writtenBy C = [] ∧ finishing threadId C = [] := by
  cases C with
  | top c =>
      cases c with
      | ended t => exact .inl ⟨t, rfl, rfl⟩
      | ready n s => exact .inr ⟨rfl, rfl⟩
      | paused n s payload => exact .inr ⟨rfl, rfl⟩
      | failed n s e => exact .inr ⟨rfl, rfl⟩
  | within n s c => exact .inr ⟨rfl, rfl⟩

theorem finalsOf_finishing (threadId : String) (C : SupervisorConfig) :
    (finalsOf (finishing threadId C)).flatMap remembered = writtenBy C := by
  rcases finishing_cases threadId C with ⟨t, rfl, hfinishing⟩ | ⟨hwritten, hfinishing⟩
  · rw [hfinishing]
    exact List.flatMap_singleton ..
  · rw [hfinishing, hwritten]
    rfl

theorem lastRecalled_saved (threadId : String) (saved : List Saved) :
    lastRecalled threadId (saved.map .saved) = none := by
  unfold lastRecalled
  rw [List.getLast?_eq_none_iff, List.filterMap_map]
  exact List.filterMap_eq_nil_iff.mpr fun _ _ => rfl

theorem lastRecalled_quiet (threadId name : String) (saved : List Saved) (C : SupervisorConfig) :
    lastRecalled threadId (saved.map .saved ++ finishing name C) = none := by
  have hfinishing : lastRecalled threadId (finishing name C) = none := by
    rcases finishing_cases name C with ⟨t, -, h⟩ | ⟨-, h⟩
    · rw [h]
      rfl
    · rw [h]
      rfl
  rw [lastRecalled_append hfinishing]
  exact lastRecalled_saved threadId saved

end Events

/-! ## One turn -/

/-- The run does not come to `memory_recall` any more. -/
def Past : SupervisorConfig → Prop
  | .top (.ready n _) => n ≠ .memoryRecall
  | .top (.paused n _ _) => n ≠ .memoryRecall
  | _ => True

/-- The session, the query and the context of the turn. -/
def Handed (handed : String × String × MemoryContext) (s : AgentState) : Prop :=
  s.sessionId = handed.1 ∧ s.query = handed.2.1 ∧ s.memoryContext = some handed.2.2

section Turn

variable {deps : Deps} {handed : String × String × MemoryContext}

theorem Handed.fold {s : AgentState} {u : Update} (h : Handed handed s)
    (hu : u.KeepsSeed ∧ u.memoryContext = none) : Handed handed (s.fold u) := by
  obtain ⟨⟨hsession, hquery, -⟩, hcontext⟩ := hu
  unfold Handed AgentState.fold at *
  rw [hsession, hquery, hcontext]
  exact h

theorem next_past {n m : SupervisorNode} {env : Env} {s : AgentState}
    (h : (supervisor deps).next n env s = some m) : m ≠ .memoryRecall := by
  cases n with
  | route =>
      obtain rfl : (dispatch s).node = m := Option.some.inj h
      cases dispatch s <;> simp [AgentName.node]
  | memoryRecall | direct | researcher | coder =>
      cases h
      simp
  | memoryWrite => cases h

theorem complete_past (n : SupervisorNode) (env : Env) (s : AgentState) (u : Update) :
    Past ((supervisor deps).complete n env s u) := by
  unfold Nested.complete
  split
  next m hm =>
      have hne := next_past hm
      unfold Nested.settle
      dsimp only
      split
      · exact hne
      · trivial
  next => trivial

/-- The plain nodes that a run still comes to leave the seed and the context alone. -/
theorem plain_discreet {n : SupervisorNode}
    {f : Env → Option Json → AgentState → NodeExecution} (hn : n ≠ .memoryRecall)
    (hf : (supervisor deps).task n = .plain f) {env : Env} {answer : Option Json}
    {s : AgentState} {u : Update} (hu : (f env answer s).outcome = .update u) :
    u.KeepsSeed ∧ u.memoryContext = none := by
  cases n with
  | memoryRecall => exact absurd rfl hn
  | route =>
      cases hf
      exact route_discreet.update u hu
  | direct =>
      cases hf
      exact direct_discreet.update u hu
  | memoryWrite =>
      cases hf
      exact memoryWrite_update hu
  | researcher | coder => cases hf

/-- What a turn was handed it keeps to its end. -/
theorem handed_step {C C' : SupervisorConfig} {r : Request Env Json} {items : List StreamItem}
    (hpast : Past C) (hC : C.Holds (Handed handed))
    (h : (supervisor deps).step C r = some (C', items)) :
    Past C' ∧ C'.Holds (Handed handed) := by
  cases C with
  | top c =>
      obtain ⟨n, f, hat, hf, -, rfl, -⟩ := (supervisor deps).step_top h
      have hn : n ≠ .memoryRecall := by
        cases c with
        | ready m s =>
            obtain rfl : m = n := hat
            exact hpast
        | paused m s payload =>
            obtain rfl : m = n := hat
            exact hpast
        | failed m s e => exact hat.elim
        | ended s => exact hat.elim
      constructor
      · cases (f r.env r.answer c.state).outcome with
        | update u => exact complete_past n r.env c.state u
        | interrupt payload => exact hn
        | error e => trivial
      · apply (supervisor deps).land_holds hC
        intro u hu
        exact Handed.fold hC (plain_discreet hn hf hu)
  | within n s c =>
      obtain ⟨G, c', inner, hG, hstep, hleave⟩ := (supervisor deps).step_within h
      have hc' : Handed handed c'.state := by
        apply G.step_invariant _ c r c' inner hC.2 hstep
        intro k env answer t u ht hu
        rw [(agent_node hG).1]
        exact ht.fold ((agent_discreet hG k env answer t).update u hu)
      have hC' : C' = ((supervisor deps).leave n r.env s (c', inner)).1 :=
        congrArg Prod.fst hleave.symm
      rcases leave_cases hG r.env s c' inner with ⟨t, rfl, hleft⟩ | ⟨-, hstay⟩
      · rw [hC', hleft]
        exact ⟨by simp [Past], hc'⟩
      · rw [hC', hstay]
        exact ⟨trivial, hC.1, hc'⟩

/-- The first node of a turn. -/
theorem recall_step {s : AgentState} {context : MemoryContext} {r : Request Env Json}
    {C' : SupervisorConfig} {items : List StreamItem}
    (h : (supervisor deps).step (.top (.ready .memoryRecall s)) (recalling context r) =
      some (C', items)) :
    Past C' ∧ C'.Holds (Handed (s.sessionId, s.query, context)) ∧
      emissions items = [] ∧ ∀ t, C' ≠ .top (.ended t) := by
  cases r with
  | resume value env => cases h
  | exec env =>
      cases h
      refine ⟨?_, ⟨rfl, rfl, rfl⟩, rfl, ?_⟩
      · show SupervisorNode.route ≠ .memoryRecall
        simp
      · intro t ht
        cases ht

theorem prepare_past {memory : ShortTermMemory} {stores : SessionStores} {call : NodeCall}
    {C : SupervisorConfig} (h : Past C) :
    prepare memory stores call C = some (call.request, []) := by
  unfold prepare
  split
  · exact absurd rfl h
  · rfl

/-- What a step writes, as the calls that the memory manager gets. -/
theorem writes_turns (call : NodeCall) (out : List Emission) :
    (call.writes out).map (fun write => (write.1, write.2.turn.role, write.2.turn.content)) =
      memoryWrites out := by
  unfold NodeCall.writes
  rw [List.map_map]
  exact List.zipIdx_map_fst 0 _

theorem saved_run {memory : ShortTermMemory} {stores after : SessionStores}
    {writes : List (String × WriteCall)} {saved : List Saved}
    (hrun : (saveSystem memory).run stores writes = some (after, saved)) :
    saved.map Saved.written =
      writes.map fun write => (write.1, write.2.turn.role, write.2.turn.content) := by
  induction writes generalizing stores saved with
  | nil =>
      cases hrun
      rfl
  | cons write writes ih =>
      obtain ⟨mid, out, rest, hsave, hrest, rfl⟩ := (saveSystem memory).run_cons.mp hrun
      obtain ⟨redis, calls, -, -, rfl⟩ := save_cases hsave
      rw [List.singleton_append, List.map_cons, List.map_cons, ih hrest]
      rfl

end Turn

/-! ## Any order of nodes -/

/-- Where a thread stands, given what it was handed last. -/
def OnCourseWith (last : Option (String × String × MemoryContext)) (C : SupervisorConfig) : Prop :=
  (∃ s, C = .top (.ready .memoryRecall s)) ∨
    Past C ∧ ∃ handed, last = some handed ∧ C.Holds (Handed handed)

/-- What the events say of the threads and of the stores. -/
structure Consistent (memory : ShortTermMemory) (chats : Chats) (events : List ChatEvent) :
    Prop where
  sessions : ∀ sessionId, Remembers memory sessionId chats.stores (savedOf events)
  threads : ∀ threadId C, chats.threads threadId = some C →
    OnCourseWith (lastRecalled threadId events) C
  written : (savedOf events).map Saved.written = (finalsOf events).flatMap remembered
  due : ∀ before event after, events = before ++ event :: after → Due memory before event

section Chats

variable {memory : ShortTermMemory} {deps : Deps} {chats chats' : Chats}
  {events out : List ChatEvent}

theorem consistent_nil (memory : ShortTermMemory) : Consistent memory {} [] := by
  constructor
  · intro sessionId
    exact remembers_nil memory sessionId
  · intro threadId C h
    cases h
  · rfl
  · intro before event after h
    exact absurd h (by simp)

theorem Consistent.chat (h : Consistent memory chats events) (turn : Turn) :
    Consistent memory (chats.chat deps turn) events := by
  unfold Chats.chat
  split
  next => exact h
  next seed hseed =>
      constructor
      · exact h.sessions
      · intro threadId C hC
        dsimp only at hC
        by_cases hthread : threadId = turn.threadId
        · rw [hthread, Function.update_self] at hC
          obtain rfl := Option.some.inj hC
          exact .inl ⟨_, rfl⟩
        · rw [Function.update_of_ne hthread] at hC
          exact h.threads threadId C hC
      · exact h.written
      · exact h.due

theorem due_append
    (h : ∀ before event after, events = before ++ event :: after → Due memory before event)
    (hout : ∀ before event after, out = before ++ event :: after →
      Due memory (events ++ before) event) :
    ∀ before event after, events ++ out = before ++ event :: after →
      Due memory before event := by
  intro before event after hsplit
  rcases List.append_eq_append_iff.mp hsplit with ⟨between, hbefore, hrest⟩ | ⟨between, hcut, hrest⟩
  · rw [hbefore]
    exact hout between event after hrest
  · cases between with
    | nil =>
        rw [List.append_nil] at hcut
        have hfirst := hout [] event after hrest.symm
        rwa [List.append_nil, hcut] at hfirst
    | cons e between =>
        have he : event = e := (List.cons.inj hrest).1
        exact h before event between (by rw [hcut, he])

theorem threads_update {threadId : String} {C' : SupervisorConfig}
    (h : Consistent memory chats events)
    (hown : OnCourseWith (lastRecalled threadId (events ++ out)) C')
    (hothers : ∀ name, name ≠ threadId → lastRecalled name out = none) (name : String)
    (C : SupervisorConfig)
    (hC : Function.update chats.threads threadId (some C') name = some C) :
    OnCourseWith (lastRecalled name (events ++ out)) C := by
  by_cases hname : name = threadId
  · rw [hname, Function.update_self] at hC
    obtain rfl := Option.some.inj hC
    rw [hname]
    exact hown
  · rw [Function.update_of_ne hname] at hC
    rw [lastRecalled_append (hothers name hname)]
    exact h.threads name C hC

/-- A thread takes `memory_recall`. -/
theorem Consistent.atRecall {call : NodeCall} {s : AgentState}
    (h : Consistent memory chats events)
    (hthread : chats.threads call.threadId = some (.top (.ready .memoryRecall s)))
    (hstep : chats.node memory deps call = some (chats', out)) :
    Consistent memory chats' (events ++ out) := by
  have hcontext := (h.sessions s.sessionId).memoryRecall call.longTerm
  simp only [Chats.node, hthread, Option.bind_some, prepare, hcontext, Option.map_some,
    Option.bind_eq_some_iff, Option.map_eq_some_iff, Prod.exists, Prod.mk.injEq] at hstep
  obtain ⟨C', items, hnode, stores, saved, hrun, rfl, rfl⟩ := hstep
  obtain ⟨hpast, hhanded, hquiet, hended⟩ := recall_step hnode
  rw [hquiet] at hrun
  cases hrun
  have hfinishing : finishing call.threadId C' = [] := by
    unfold finishing
    split
    next t => exact absurd rfl (hended t)
    next => rfl
  rw [hfinishing]
  constructor
  · intro sessionId
    rw [savedOf_append]
    simpa [savedOf] using h.sessions sessionId
  · apply threads_update h
    · refine .inr ⟨hpast, _, ?_, hhanded⟩
      exact lastRecalled_recalled ..
    · intro name hname
      simp [lastRecalled, hname.symm]
  · rw [savedOf_append, finalsOf_append]
    simpa [savedOf, finalsOf] using h.written
  · apply due_append h.due
    intro before event after hsplit
    cases before with
    | nil =>
        cases hsplit
        rw [List.append_nil]
        exact ⟨rfl, rfl⟩
    | cons e before => simp at hsplit

/-- A thread takes a later node. -/
theorem Consistent.later {call : NodeCall} {C : SupervisorConfig}
    {handed : String × String × MemoryContext} (h : Consistent memory chats events)
    (hthread : chats.threads call.threadId = some C) (hpast : Past C)
    (hlast : lastRecalled call.threadId events = some handed) (hC : C.Holds (Handed handed))
    (hstep : chats.node memory deps call = some (chats', out)) :
    Consistent memory chats' (events ++ out) := by
  simp only [Chats.node, hthread, Option.bind_some, prepare_past hpast,
    Option.bind_eq_some_iff, Option.map_eq_some_iff, Prod.exists, Prod.mk.injEq] at hstep
  obtain ⟨C', items, hnode, stores, saved, hrun, rfl, rfl⟩ := hstep
  obtain ⟨hpast', hC'⟩ := handed_step hpast hC hnode
  have hsaved : savedOf (saved.map .saved ++ finishing call.threadId C') = saved := by
    rw [savedOf_append, savedOf_map]
    rcases finishing_cases call.threadId C' with ⟨t, -, h⟩ | ⟨-, h⟩
    · rw [h]
      exact List.append_nil _
    · rw [h]
      exact List.append_nil _
  rw [List.nil_append]
  constructor
  · intro sessionId
    rw [savedOf_append, hsaved]
    exact (h.sessions sessionId).run hrun
  · apply threads_update h
    · rw [lastRecalled_append (lastRecalled_quiet ..)]
      exact .inr ⟨hpast', handed, hlast, hC'⟩
    · intro name _
      exact lastRecalled_quiet ..
  · have hnow : saved.map Saved.written =
        (finalsOf (saved.map .saved ++ finishing call.threadId C')).flatMap remembered := by
      rw [saved_run hrun, writes_turns, step_writes hnode, finalsOf_append, finalsOf_map,
        List.nil_append, finalsOf_finishing]
    rw [savedOf_append, finalsOf_append, List.map_append, List.flatMap_append, h.written, hsaved,
      hnow]
  · rw [← List.append_assoc]
    apply due_append (due_append h.due _)
    · intro before event after hsplit
      rcases finishing_cases call.threadId C' with ⟨t, rfl, hfinishing⟩ | ⟨-, hfinishing⟩
      · rw [hfinishing] at hsplit
        cases before with
        | nil =>
            cases hsplit
            have ht : Handed handed t := hC'
            refine ⟨_, ht.2.2, ?_⟩
            rw [List.append_nil, lastRecalled_append (lastRecalled_saved ..), hlast, ht.1, ht.2.1]
        | cons e before => simp at hsplit
      · rw [hfinishing] at hsplit
        simp at hsplit
    · intro before event after hsplit
      have hmem : event ∈ saved.map ChatEvent.saved := by
        rw [hsplit]
        simp
      obtain ⟨entry, -, rfl⟩ := List.mem_map.mp hmem
      trivial

theorem Consistent.step {call : ChatCall} (h : Consistent memory chats events)
    (hstep : (chatSystem memory deps).step chats call = some (chats', out)) :
    Consistent memory chats' (events ++ out) := by
  cases call with
  | chat turn =>
      cases hstep
      rw [List.append_nil]
      exact h.chat turn
  | node call =>
      cases hthread : chats.threads call.threadId with
      | none =>
          have hnone : chats.node memory deps call = none := by
            rw [Chats.node, hthread]
            rfl
          have hsome : chats.node memory deps call = some (chats', out) := hstep
          rw [hnone] at hsome
          cases hsome
      | some C =>
          rcases h.threads call.threadId C hthread with ⟨s, rfl⟩ | ⟨hpast, handed, hlast, hC⟩
          · exact h.atRecall hthread hstep
          · exact h.later hthread hpast hlast hC hstep

end Chats

/-- However the nodes of all threads are interleaved, as long as the writes return: the
ledger, the window and the summaries of each session account for all that its turns have
said, and that is the query and the answer of each turn that has finished.  A recall finds
the most recent part of it and the last summary, and a turn goes from its recall to its
end with what it was handed there. -/
theorem conversation_remembered (memory : ShortTermMemory) (deps : Deps) (calls : List ChatCall)
    (chats : Chats) (events : List ChatEvent)
    (hrun : (chatSystem memory deps).run {} calls = some (chats, events)) :
    Consistent memory chats events ∧
      ∀ sessionId longTerm, memory.memoryRecall chats.stores sessionId longTerm =
        some { summary := latest none (summarisedIn sessionId (savedOf events)),
               recent := (saidIn sessionId (savedOf events)).rtake memory.window, longTerm } := by
  have h : Consistent memory chats ([] ++ events) := by
    apply System.run_induction (P := Consistent memory) _ (consistent_nil memory) hrun
    intro chats before call after out _ h hstep
    exact h.step hstep
  exact ⟨h, fun sessionId => (h.sessions sessionId).memoryRecall⟩

/-- Two threads of one session.  The second one is handed what the first one has written. -/
theorem conversation_remembered_two :
    let turn (threadId : String) : Turn :=
      { sessionId := "s", threadId := threadId, query := "q", now := 0, requests := [] }
    let quiet : ℕ → Meets := fun _ => { collaborators := { chat := fun _ => "" } }
    let node (threadId : String) : ChatCall :=
      .node ⟨threadId, .exec (stubEnv { content := "42" }), [], quiet⟩
    ∃ chats events, (chatSystem oneTurn stubDeps).run {}
        [.chat (turn "a"), node "a", .chat (turn "b"), node "a", node "a", node "a", node "b"] =
          some (chats, events) ∧
      oneTurn.memoryRecall chats.stores "s" [] =
        some { summary := none, recent := [⟨"assistant", "42"⟩], longTerm := [] } := by
  intro turn quiet node
  have hread : ((chatSystem oneTurn stubDeps).run {}
      [.chat (turn "a"), node "a", .chat (turn "b"), node "a", node "a", node "a", node "b"]).map
        (fun (_, events) => (saidIn "s" (savedOf events),
          latest none (summarisedIn "s" (savedOf events)))) =
      some ([⟨"user", "q"⟩, ⟨"assistant", "42"⟩], none) := by
    decide +kernel
  obtain ⟨⟨chats, events⟩, hrun, hevents⟩ := Option.map_eq_some_iff.mp hread
  obtain ⟨hsaid, hsummary⟩ := Prod.mk.inj hevents
  have h := (conversation_remembered oneTurn stubDeps _ chats events hrun).2 "s" []
  rw [hsaid, hsummary] at h
  exact ⟨chats, events, hrun, h⟩

end Lour.Agents
