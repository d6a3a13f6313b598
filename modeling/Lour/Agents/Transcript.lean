import Lour.Agents.Answers
import Lour.Agents.Thread
import Lour.Agents.ToolCap
/-!
# The transcript of an agent

The entry node opens the transcript with a system and a user message, and every
execution of `act` that returns adds one exchange: what the assistant said, and one
tool message for each call it listed.  The ledger and the budget's counter are read
off the same exchanges.
-/

namespace Lour.Agents

open Lour.Core Lour.Lib Lour.Lib.Python

/-- An assistant message with a reply to each call it lists, in order, and the calls
among them that were run, each with its position. -/
structure Exchange where
  content : String
  calls : List ToolCall
  replies : List LLMMessage
  ran : List (ToolCall × ℕ)
  answered : List.Forall₂ Replies calls replies
  ran_sublist : ran.Sublist calls.zipIdx

def Exchange.messages (self : Exchange) : List LLMMessage :=
  .assistant self.content self.calls :: self.replies

/-- What a run added to the transcript and the ledger, and ran, after its opening. -/
structure Held (opening : List LLMMessage) (exchanges : List Exchange)
    (items : List StreamItem) : Prop where
  said : produced messagesOf items = opening ++ exchanges.flatMap Exchange.messages
  recorded : List.Forall₂ Records (exchanges.flatMap Exchange.calls) (produced recordsOf items)
  ran : ranCalls (emissions items) = (exchanges.flatMap Exchange.ran).map ranEntry

/-- The transcript is well formed, the ledger has its calls in order, and the counter
is the number of those that were run. -/
def Transcribed (items : List StreamItem) (s : AgentState) : Prop :=
  ∃ (system user : String) (exchanges : List Exchange),
    s.messages = .system system :: .user user :: exchanges.flatMap Exchange.messages ∧
    List.Forall₂ Records (exchanges.flatMap Exchange.calls) s.toolsCalled ∧
    ranCalls (emissions items) = (exchanges.flatMap Exchange.ran).map ranEntry ∧
    s.budget.toolCallsMade = (exchanges.flatMap Exchange.ran).length

theorem Held.quiet {opening : List LLMMessage} {exchanges : List Exchange}
    {items out : List StreamItem} (h : Held opening exchanges items)
    (hsaid : produced messagesOf out = []) (hrecorded : produced recordsOf out = [])
    (hran : ranCalls (emissions out) = []) : Held opening exchanges (items ++ out) where
  said := by rw [produced_append, hsaid, List.append_nil, h.said]
  recorded := by
    rw [produced_append, hrecorded, List.append_nil]
    exact h.recorded
  ran := by rw [emissions_append, ranCalls_append, hran, List.append_nil, h.ran]

/-- The channels of a thread without turns. -/
structure FreshThread (s : AgentState) : Prop where
  messages : s.messages = []
  toolsCalled : s.toolsCalled = []
  budget : s.budget.Fresh

/-! ## One execution -/

section Node

variable {deps : Deps} {env : Env} {answer : Option Json} {state : AgentState}

/-- `act` returns with one exchange. -/
theorem act_exchange {u : Update} (h : (act deps env answer state).outcome = .update u) :
    ∃ exchange : Exchange, messagesOf u = exchange.messages ∧
      List.Forall₂ Records exchange.calls (recordsOf u) ∧
      ranCalls (act deps env answer state).out = exchange.ran.map ranEntry := by
  have hran := @act_ranCalls deps env answer state
  rcases act_update_cases h with ⟨hnil, rfl⟩ | ⟨approved, hpass, rfl⟩
  · have hcalls : (responded deps env state).toolCalls = [] := hnil
    rw [hnil, pass1_of_none_flagged (by simp [needsApproval])] at hran
    refine ⟨⟨(responded deps env state).content, [], [], [], .nil, .slnil⟩, ?_, .nil, hran⟩
    show [assistantMessage _ (responded deps env state).toolCalls] = _
    rw [hcalls]
    rfl
  · rw [hpass] at hran
    exact ⟨⟨(responded deps env state).content, requested deps env state,
      (pass2 deps state.policy env approved (requested deps env state)).messages,
      runnable deps state.policy approved (requested deps env state), pass2_replies _,
      List.filter_sublist⟩, rfl, pass2_recorded _, hran⟩

end Node

/-- The entry node opens the transcript, and besides it only `act` adds to it. -/
structure Speaks {ν : Type} (G : AgentGraph ν) (actNode : ν) : Prop where
  opens : ∀ env answer s, ∃ system user u, (G.node G.entry env answer s).outcome = .update u ∧
    messagesOf u = [.system system, .user user] ∧ recordsOf u = []
  silent : ∀ n env answer s, n ≠ G.entry → n ≠ actNode →
    ∃ u, (G.node n env answer s).outcome = .update u ∧ messagesOf u = [] ∧ recordsOf u = []

theorem finalize_silent (env : Env) (state : AgentState) :
    ∃ u, (finalize env state).outcome = .update u ∧ messagesOf u = [] ∧ recordsOf u = [] := by
  unfold finalize
  split <;> exact ⟨_, rfl, rfl, rfl⟩

theorem researcher_speaks (deps : Deps) : Speaks (researcher deps) .act where
  opens _ _ _ := ⟨_, _, _, rfl, rfl, rfl⟩
  silent n env answer s hentry hact := by
    cases n with
    | plan => exact absurd rfl hentry
    | act => exact absurd rfl hact
    | reflect => exact ⟨_, rfl, rfl, rfl⟩
    | finalize => exact finalize_silent env s

theorem coder_speaks (deps : Deps) : Speaks (coder deps) .act where
  opens _ _ _ := ⟨_, _, _, rfl, rfl, rfl⟩
  silent n env answer s hentry hact := by
    cases n with
    | setup => exact absurd rfl hentry
    | act => exact absurd rfl hact
    | finalize => exact finalize_silent env s

/-! ## Whole runs -/

section Runs

variable {deps : Deps} {ν : Type} {G : AgentGraph ν} {a f : ν} {w : ν → ℕ}

theorem AgentLoop.next_ne_entry (hloop : AgentLoop deps G a f w) {n m : ν} {env : Env}
    {s : AgentState} (h : G.next n env s = some m) : m ≠ G.entry := by
  by_cases hentry : n = G.entry
  · subst hentry
    rw [(hloop.next_entry env s).1, Option.some.injEq] at h
    rw [← h]
    exact hloop.entry_ne_act.symm
  by_cases hact : n = a
  · obtain ⟨m', hm', hne, -⟩ := hloop.next_act env s
    rw [hact, hm', Option.some.injEq] at h
    exact h ▸ hne
  by_cases hfinal : n = f
  · rw [hfinal, hloop.next_final] at h
    cases h
  · obtain ⟨m', hm', hne, -⟩ := hloop.next_other n env s hentry hact hfinal
    rw [hm', Option.some.injEq] at h
    exact h ▸ hne

/-- Where a run stands after its first execution: past the entry node, and past an
exchange wherever it is not at `act`. -/
structure Talked (G : AgentGraph ν) (a : ν) (opening : List LLMMessage)
    (c : Config ν AgentState (List PendingApproval) AgentError) (items : List StreamItem)
    (exchanges : List Exchange) : Prop where
  held : Held opening exchanges items
  entered : ∀ n, c.At n → n ≠ G.entry
  spoken : ∀ n, c.At n → n ≠ a → exchanges ≠ []

theorem AgentLoop.at_complete (hloop : AgentLoop deps G a f w) {n m : ν} {env : Env}
    {s : AgentState} {u : Update} (h : (G.complete n env s u).At m) : m ≠ G.entry := by
  unfold StateGraph.complete at h
  split at h
  next m' hnext =>
      rw [← show m' = m from h]
      exact hloop.next_ne_entry hnext
  next => exact h.elim

/-- One more execution: `act` adds an exchange when it returns, and nothing else adds
anything. -/
theorem AgentLoop.step_talked (hloop : AgentLoop deps G a f w) (hspeaks : Speaks G a)
    {opening : List LLMMessage} {c c' : Config ν AgentState (List PendingApproval) AgentError}
    {items out : List StreamItem} {exchanges : List Exchange} {r : Request Env Json}
    (hc : Talked G a opening c items exchanges) (h : G.step c r = some (c', out)) :
    ∃ after, Talked G a opening c' (items ++ out) after := by
  obtain ⟨n, hat, -, rfl, rfl⟩ := G.step_cases h
  have hentry := hc.entered n hat
  by_cases hact : n = a
  · subst hact
    have hquiet : (∀ u, (G.node n r.env r.answer c.state).outcome ≠ .update u) → Held opening
        exchanges (items ++ (G.node n r.env r.answer c.state).items (G.name n)) := by
      intro hnot
      have hnothing : ∀ {β : Type} (g : Update → List β),
          (G.node n r.env r.answer c.state).outcome.returned g = [] := by
        intro β g
        cases ho : (G.node n r.env r.answer c.state).outcome with
        | update u => exact absurd ho (hnot u)
        | _ => rfl
      apply hc.held.quiet
      · rw [produced_items, hnothing]
      · rw [produced_items, hnothing]
      · rw [emissions_items]
        exact hloop.ranCalls_of_not_update hnot
    cases ho : (G.node n r.env r.answer c.state).outcome with
    | update u =>
        have hnode := ho
        rw [hloop.node_act] at hnode
        obtain ⟨exchange, hsaid, hrecorded, hran⟩ := act_exchange hnode
        refine ⟨exchanges ++ [exchange], ⟨?_, ?_, ?_⟩, fun m hm => hloop.at_complete hm,
          fun m _ _ => by simp⟩
        · rw [produced_append, produced_items, ho, Outcome.returned, hc.held.said, hsaid,
            List.flatMap_append, List.append_assoc]
          simp
        · rw [produced_append, produced_items, ho, Outcome.returned, List.flatMap_append]
          apply List.rel_append hc.held.recorded
          simpa using hrecorded
        · rw [emissions_append, emissions_items, ranCalls_append, hc.held.ran, hloop.node_act,
            hran, List.flatMap_append, List.map_append]
          simp
    | interrupt payload =>
        refine ⟨exchanges, hquiet (by simp [ho]), ?_, ?_⟩
        · rintro m rfl
          exact hentry
        · rintro m rfl hne
          exact absurd rfl hne
    | error e =>
        refine ⟨exchanges, hquiet (by simp [ho]), ?_, ?_⟩
        · exact fun m hm => hm.elim
        · exact fun m hm => hm.elim
  · obtain ⟨u, hu, hsaid, hrecorded⟩ := hspeaks.silent n r.env r.answer c.state hentry hact
    rw [hu]
    refine ⟨exchanges, hc.held.quiet ?_ ?_ ?_, fun m hm => hloop.at_complete hm,
      fun m _ _ => hc.spoken n hat hact⟩
    · rw [produced_items, hu, Outcome.returned, hsaid]
    · rw [produced_items, hu, Outcome.returned, hrecorded]
    · rw [emissions_items]
      exact (hloop.passive n r.env r.answer c.state hact).ran

/-- The entry node opens the transcript. -/
theorem AgentLoop.first_talked (hloop : AgentLoop deps G a f w) (hspeaks : Speaks G a)
    {s : AgentState} {c : Config ν AgentState (List PendingApproval) AgentError}
    {r : Request Env Json} {out : List StreamItem} (h : G.step (G.start s) r = some (c, out)) :
    ∃ system user, Talked G a [.system system, .user user] c out [] := by
  obtain ⟨n, hat, -, rfl, rfl⟩ := G.step_cases h
  have hn : n = G.entry := Eq.symm hat
  subst hn
  obtain ⟨system, user, u, hu, hsaid, hrecorded⟩ :=
    hspeaks.opens r.env r.answer (G.start s).state
  refine ⟨system, user, ⟨?_, ?_, ?_⟩, ?_, ?_⟩
  · rw [produced_items, hu, Outcome.returned, hsaid]
    rfl
  · rw [produced_items, hu, Outcome.returned, hrecorded]
    exact .nil
  · rw [emissions_items]
    exact (hloop.passive _ r.env r.answer _ hloop.entry_ne_act).ran
  · rw [hu]
    exact fun m hm => hloop.at_complete hm
  · rw [hu, StateGraph.land, StateGraph.complete, (hloop.next_entry r.env _).1]
    rintro m rfl hne
    exact absurd rfl hne

theorem AgentLoop.run_talked (hloop : AgentLoop deps G a f w) (hspeaks : Speaks G a)
    {s : AgentState} {requests : List (Request Env Json)} (hne : requests ≠ [])
    {c : Config ν AgentState (List PendingApproval) AgentError} {items : List StreamItem}
    (h : G.system.run (G.start s) requests = some (c, items)) :
    ∃ system user exchanges, Talked G a [.system system, .user user] c items exchanges := by
  cases requests with
  | nil => exact absurd rfl hne
  | cons r rest =>
      obtain ⟨c₁, out, items', hstep, hrun, rfl⟩ := G.system.run_cons.mp h
      obtain ⟨system, user, hfirst⟩ := hloop.first_talked hspeaks hstep
      refine ⟨system, user, ?_⟩
      exact G.system.run_induction
        (P := fun c items => ∃ exchanges, Talked G a [.system system, .user user] c items exchanges)
        (fun c items r c' out _ ⟨exchanges, hc⟩ hstep => hloop.step_talked hspeaks hc hstep)
        ⟨[], hfirst⟩ hrun

/-- A channel with the append reducer holds what it held, and what the run produced. -/
theorem AgentLoop.run_channel (hloop : AgentLoop deps G a f w) {β : Type}
    {channel : AgentState → List β} {g : Update → List β} (hchannel : AppendChannel channel g)
    {s : AgentState} {requests : List (Request Env Json)}
    {c : Config ν AgentState (List PendingApproval) AgentError} {items : List StreamItem}
    (h : G.system.run (G.start s) requests = some (c, items)) :
    channel c.state = channel s ++ produced g items := by
  have hfold : ∀ t u, channel (G.fold t u) = channel t ++ g u := by
    rw [hloop.fold_eq]
    exact hchannel.fold
  have hstart : channel (G.start s).state = channel s ++ produced g ([] : List StreamItem) :=
    (List.append_nil _).symm
  refine G.system.run_induction
    (P := fun c items => channel c.state = channel s ++ produced g items)
    (fun c items r c' out _ hc hstep => ?_) hstart h
  rw [G.step_produced hfold hstep, hc, produced_append, List.append_assoc]

theorem AgentLoop.run_toolCallsMade (hloop : AgentLoop deps G a f w) {s : AgentState}
    {requests : List (Request Env Json)}
    {c : Config ν AgentState (List PendingApproval) AgentError} {items : List StreamItem}
    (h : G.system.run (G.start s) requests = some (c, items)) :
    c.state.budget.toolCallsMade =
      s.budget.toolCallsMade + (ranCalls (emissions items)).length := by
  have hstart : (G.start s).state.budget.toolCallsMade =
      s.budget.toolCallsMade + (ranCalls (emissions ([] : List StreamItem))).length :=
    (add_zero _).symm
  refine G.system.run_induction
    (P := fun c items => c.state.budget.toolCallsMade =
      s.budget.toolCallsMade + (ranCalls (emissions items)).length)
    (fun c items r c' out _ hc hstep => ?_) hstart h
  obtain ⟨n, -, -, hland, rfl⟩ := G.step_cases hstep
  rw [hloop.step_toolCallsMade hland, hc, emissions_append, emissions_items, ranCalls_append,
    List.length_append]
  omega

theorem AgentLoop.run_transcribed (hloop : AgentLoop deps G a f w) (hspeaks : Speaks G a)
    {s : AgentState} (hfresh : FreshThread s) {requests : List (Request Env Json)}
    (hne : requests ≠ []) {c : Config ν AgentState (List PendingApproval) AgentError}
    {items : List StreamItem} (h : G.system.run (G.start s) requests = some (c, items)) :
    Transcribed items c.state := by
  obtain ⟨system, user, exchanges, htalked⟩ := hloop.run_talked hspeaks hne h
  refine ⟨system, user, exchanges, ?_, ?_, htalked.held.ran, ?_⟩
  · have hmessages := hloop.run_channel messages_channel h
    rw [hmessages, hfresh.messages, htalked.held.said]
    rfl
  · have hledger := hloop.run_channel toolsCalled_channel h
    rw [hledger, hfresh.toolsCalled]
    exact htalked.held.recorded
  · rw [hloop.run_toolCallsMade h, hfresh.budget.2.1, htalked.held.ran, List.length_map]
    exact zero_add _

end Runs

/-- In every state that a run of the researcher or the coder on a fresh thread reaches
once the entry node was executed, transcript, ledger and counter tell the same calls. -/
theorem transcripts_well_formed (deps : Deps) (s : AgentState) (hfresh : FreshThread s)
    (requests : List (Request Env Json)) (hne : requests ≠ []) :
    (∀ c items, (researcher deps).system.run ((researcher deps).start s) requests =
        some (c, items) → Transcribed items c.state) ∧
      ∀ c items, (coder deps).system.run ((coder deps).start s) requests = some (c, items) →
        Transcribed items c.state :=
  ⟨fun _ _ => (researcher_loop deps).run_transcribed (researcher_speaks deps) hfresh hne,
    fun _ _ => (coder_loop deps).run_transcribed (coder_speaks deps) hfresh hne⟩

/-- One turn with a call that a human lets through, and one that answers. -/
def approvedCallRequests : List (Request Env Json) :=
  let asking := stubEnv { content := "", toolCalls := [⟨"code_exec", .obj []⟩] }
  [.exec asking, .exec asking, .resume (.bool true) asking, .exec (stubEnv { content := "42" })]

theorem transcripts_well_formed_approved :
    let s := stubState "q" { approvalRules := { requireApprovalOnSideEffects := true } }
    (∃ c items, (researcher stubDeps).system.run ((researcher stubDeps).start s)
        approvedCallRequests = some (c, items) ∧ Transcribed items c.state) ∧
      ∃ c items, (coder stubDeps).system.run ((coder stubDeps).start s)
        approvedCallRequests = some (c, items) ∧ Transcribed items c.state := by
  intro s
  have hfresh : FreshThread s := ⟨rfl, rfl, rfl, rfl, rfl⟩
  obtain ⟨hresearcher, hcoder⟩ :=
    transcripts_well_formed stubDeps s hfresh approvedCallRequests nofun
  exact ⟨⟨_, _, rfl, hresearcher _ _ rfl⟩, _, _, rfl, hcoder _ _ rfl⟩

/-- A run that has not executed its entry node has no transcript yet. -/
theorem transcript_empty_at_start :
    ¬ ∀ (deps : Deps) (s : AgentState), FreshThread s →
      ∀ (requests : List (Request Env Json)) c items,
        (coder deps).system.run ((coder deps).start s) requests = some (c, items) →
          Transcribed items c.state := by
  intro h
  have hfresh : FreshThread (stubState "q" {}) := ⟨rfl, rfl, rfl, rfl, rfl⟩
  obtain ⟨system, user, exchanges, hmessages, -⟩ := h stubDeps _ hfresh [] _ _ rfl
  cases hmessages

end Lour.Agents
