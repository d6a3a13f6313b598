import Lour.Memory.ShortTerm
/-!
# Every turn is in the window or was summarised

An append that returns pushes its turn into the window and hands what falls out
to one call of the summariser, together with the summary that is stored.
-/

namespace Lour.Memory

open Lour.Lib Lour.Lib.Python

/-- The summary stored last, or the one there was before. -/
def latest (initial : Option String) (calls : List SummaryCall) : Option String :=
  (calls.filterMap SummaryCall.summary).getLast?.or initial

/-- Each call of the summariser was given the summary that was stored then. -/
def Informed (initial : Option String) (calls : List SummaryCall) : Prop :=
  ∀ before call rest, calls = before ++ call :: rest → call.prior = latest initial before

@[simp] theorem latest_nil (initial : Option String) : latest initial [] = initial := rfl

/-- Nothing is stored exactly where the answer is blank. -/
theorem SummaryCall.summary_eq_none_iff (call : SummaryCall) :
    call.summary = none ↔ isBlank call.content = true := by
  rw [← strip_eq_empty_iff, SummaryCall.summary]
  split
  next hblank => exact iff_of_true rfl hblank
  next hblank => exact iff_of_false (by simp) hblank

theorem latest_append (initial : Option String) (calls rest : List SummaryCall) :
    latest initial (calls ++ rest) = latest (latest initial calls) rest := by
  rw [latest, latest, latest, List.filterMap_append, List.getLast?_append, Option.or_assoc]

theorem informed_nil (initial : Option String) : Informed initial [] := by
  intro before call rest h
  exact absurd h (by simp)

theorem informed_singleton {initial : Option String} {call : SummaryCall}
    (hprior : call.prior = initial) : Informed initial [call] := by
  intro before c rest h
  cases before with
  | nil =>
      cases h
      exact hprior
  | cons b before => simp at h

theorem informed_append {initial : Option String} {calls rest : List SummaryCall}
    (hcalls : Informed initial calls) (hrest : Informed (latest initial calls) rest) :
    Informed initial (calls ++ rest) := by
  intro before call after h
  rcases List.append_eq_append_iff.mp h with ⟨between, hbefore, hsplit⟩ | ⟨between, hcut, hsplit⟩
  · rw [hbefore, latest_append]
    exact hrest between call after hsplit
  · cases between with
    | nil =>
        rw [List.append_nil] at hcut
        have hprior := hrest [] call after hsplit.symm
        rw [hcut] at hprior
        simpa using hprior
    | cons c between =>
        have hc : call = c := (List.cons.inj hsplit).1
        exact hcalls before call between (by rw [hcut, hc])

/-- The session's window and summary. -/
structure Holds (memory : ShortTermMemory) (sessionId : String) (redis : Redis)
    (turns : List ConversationTurn) (summary : Option String) : Prop where
  turns : redis.lists (msgsKey sessionId) = turns.map memory.dump
  summary : redis.strings (summaryKey sessionId) = summary.map encode

section

variable {self : ShortTermMemory} {sessionId : String} {redis : Redis}
  {turns : List ConversationTurn} {summary : Option String}

theorem mapM_dump (self : ShortTermMemory) (turns : List ConversationTurn) :
    (turns.map self.dump).mapM self.codec.modelValidateJson = some turns := by
  induction turns with
  | nil => rfl
  | cons turn turns ih =>
      have hturn : self.codec.modelValidateJson (self.dump turn) = some turn :=
        self.codec.round_trip turn
      rw [List.map_cons, List.mapM_cons, hturn, ih]
      rfl

theorem Holds.getWindow (h : Holds self sessionId redis turns summary) :
    self.getWindow sessionId redis = some turns := by
  rw [ShortTermMemory.getWindow, Redis.lrange, h.turns]
  exact mapM_dump self turns

theorem Holds.getSummary (h : Holds self sessionId redis turns summary) :
    ShortTermMemory.getSummary sessionId redis = summary := by
  rw [ShortTermMemory.getSummary, Redis.get, h.summary]
  cases summary <;> simp

/-! ## One append -/

theorem step_of_returns {env : Collaborators} (hreturns : ∀ site, env.raises site = false)
    (phase : Phase) (redis : Redis) :
    self.step sessionId env phase redis = self.call sessionId env phase redis := by
  have hnone : phase.site.any env.raises = false := by
    cases phase.site <;> simp [hreturns]
  rw [ShortTermMemory.step, hnone]
  rfl

/-- A call that does not reach the summariser. -/
theorem steps_of_call {env : Collaborators} (hreturns : ∀ site, env.raises site = false)
    {phase phase' : Phase} {redis redis' : Redis}
    (hcall : self.call sessionId env phase redis = (phase', redis', [])) (n : ℕ) :
    self.steps sessionId env (n + 1) phase redis = self.steps sessionId env n phase' redis' := by
  rw [ShortTermMemory.steps, step_of_returns hreturns, hcall]
  rfl

/-- `_summarise_tail` where no call raises. -/
theorem summariseTail_spec {env : Collaborators} (hreturns : ∀ site, env.raises site = false)
    (h : Holds self sessionId redis turns summary) {overflow : ℕ} (hpos : 0 < overflow)
    (hle : overflow ≤ turns.length) :
    ∃ after call, self.steps sessionId env 4 (.lpop overflow) redis = (.returned, after, [call]) ∧
      call.evicted = turns.take overflow ∧ call.prior = summary ∧
      Holds self sessionId after (turns.drop overflow) (call.summary.or summary) := by
  let popped := (redis.lpop (msgsKey sessionId) overflow).2
  let content := env.chat (summaryPrompt (turns.take overflow) summary)
  have hpopped : Holds self sessionId popped (turns.drop overflow) summary := by
    constructor
    · rw [Redis.lists_lpop, h.turns, List.map_drop]
    · rw [Redis.strings_lpop, h.summary]
  have hraw : (redis.lpop (msgsKey sessionId) overflow).1 =
      (turns.take overflow).map self.dump := by
    rw [Redis.lpop_popped, h.turns, List.map_take]
  have hsome : ((turns.take overflow).map self.dump).isEmpty = false := by
    rw [List.isEmpty_eq_false_iff, ← List.length_pos_iff, List.length_map, List.length_take]
    omega
  have hlpop : self.call sessionId env (.lpop overflow) redis =
      (.get (turns.take overflow), popped, []) := by
    simp only [ShortTermMemory.call, hraw, hsome, mapM_dump]
    rfl
  have hget : self.call sessionId env (.get (turns.take overflow)) popped =
      (.chat (turns.take overflow) summary, popped, []) := by
    simp only [ShortTermMemory.call, Redis.get, hpopped.summary]
    cases summary <;> simp
  by_cases hblank : strip content = ""
  · refine ⟨popped, ⟨turns.take overflow, summary, content⟩, ?_, rfl, rfl, ?_⟩
    · have hchat : self.call sessionId env (.chat (turns.take overflow) summary) popped =
          (.returned, popped, [⟨turns.take overflow, summary, content⟩]) := by
        simp only [ShortTermMemory.call]
        rw [if_neg (not_not.mpr hblank)]
      rw [steps_of_call hreturns hlpop, steps_of_call hreturns hget, ShortTermMemory.steps,
        step_of_returns hreturns, hchat]
      rfl
    · simpa [SummaryCall.summary, hblank] using hpopped
  · refine ⟨popped.set (summaryKey sessionId) (encode (strip content)),
      ⟨turns.take overflow, summary, content⟩, ?_, rfl, rfl, ?_⟩
    · have hchat : self.call sessionId env (.chat (turns.take overflow) summary) popped =
          (.set (strip content), popped, [⟨turns.take overflow, summary, content⟩]) := by
        simp only [ShortTermMemory.call]
        rw [if_pos hblank]
      rw [steps_of_call hreturns hlpop, steps_of_call hreturns hget]
      simp only [ShortTermMemory.steps, step_of_returns hreturns, hchat]
      rfl
    · constructor
      · rw [Redis.lists_set, hpopped.turns]
      · rw [Redis.strings_set]
        simp [SummaryCall.summary, hblank]

/-- Up to the length check, where no call raises. -/
theorem append_eq {env : Collaborators} (hreturns : ∀ site, env.raises site = false)
    (turn : ConversationTurn) (redis : Redis) :
    self.append sessionId env turn redis =
      self.steps sessionId env 4
        (if 0 < (redis.rpush (msgsKey sessionId) (self.dump turn)).llen (msgsKey sessionId) -
            self.window
          then .lpop ((redis.rpush (msgsKey sessionId) (self.dump turn)).llen
            (msgsKey sessionId) - self.window)
          else .returned)
        (redis.rpush (msgsKey sessionId) (self.dump turn)) := by
  have hexpire : self.call sessionId env (.rpush turn) redis =
      (.expire, redis.rpush (msgsKey sessionId) (self.dump turn), []) := rfl
  rw [ShortTermMemory.append, steps_of_call hreturns hexpire, steps_of_call hreturns rfl,
    steps_of_call hreturns rfl]

/-- An append returns, and does to the stored window what `Window.push` does. -/
theorem append_spec {env : Collaborators} (hreturns : ∀ site, env.raises site = false)
    (h : Holds self sessionId redis turns summary) (turn : ConversationTurn) :
    ∃ after calls, self.append sessionId env turn redis = (.returned, after, calls) ∧
      Holds self sessionId after (Window.push self.window turns turn).2 (latest summary calls) ∧
      calls.flatMap SummaryCall.evicted = (Window.push self.window turns turn).1 ∧
      Informed summary calls := by
  let pushed := redis.rpush (msgsKey sessionId) (self.dump turn)
  have hpushed : Holds self sessionId pushed (turns ++ [turn]) summary := by
    constructor
    · rw [Redis.lists_rpush, h.turns, List.map_append, List.map_singleton]
    · rw [Redis.strings_rpush, h.summary]
  have hlen : pushed.llen (msgsKey sessionId) = (turns ++ [turn]).length := by
    rw [Redis.llen, hpushed.turns, List.length_map]
  let overflow := (turns ++ [turn]).length - self.window
  have hstart : self.append sessionId env turn redis =
      self.steps sessionId env 4 (if 0 < overflow then .lpop overflow else .returned) pushed := by
    rw [append_eq hreturns, hlen]
  rw [hstart, Window.push_evicted, Window.push_kept]
  by_cases hpos : 0 < overflow
  · rw [if_pos hpos]
    obtain ⟨after, call, hsteps, hevicted, hprior, hafter⟩ :=
      summariseTail_spec hreturns hpushed hpos (Nat.sub_le ..)
    refine ⟨after, [call], hsteps, ?_, (List.flatMap_singleton ..).trans hevicted, ?_⟩
    · have hlatest : latest summary [call] = call.summary.or summary := by
        rw [latest]
        cases hsummary : call.summary <;> simp [hsummary]
      rw [hlatest]
      exact hafter
    · exact informed_singleton hprior
  · have hzero : overflow = 0 := by omega
    rw [if_neg hpos]
    refine ⟨pushed, [], ?_, ?_, ?_, informed_nil summary⟩
    · simp [ShortTermMemory.steps, step_of_returns hreturns, ShortTermMemory.call]
    · rw [List.rtake, show (turns ++ [turn]).length - self.window = 0 from hzero]
      exact hpushed
    · rw [show (turns ++ [turn]).length - self.window = 0 from hzero]
      rfl

/-! ## Sequences of appends -/

theorem appends_spec (calls : List AppendCall)
    (hreturns : ∀ call ∈ calls, ∀ site, call.env.raises site = false)
    (h : Holds self sessionId redis turns summary) :
    ∃ after summarised,
      (appendSystem self sessionId).run redis calls = some (after, summarised) ∧
      Holds self sessionId after
        (Window.pushAll self.window turns (calls.map AppendCall.turn)).2
        (latest summary summarised) ∧
      summarised.flatMap SummaryCall.evicted =
        (Window.pushAll self.window turns (calls.map AppendCall.turn)).1 ∧
      Informed summary summarised := by
  induction calls generalizing redis turns summary with
  | nil => exact ⟨redis, [], rfl, h, rfl, informed_nil summary⟩
  | cons call calls ih =>
      obtain ⟨mid, first, happend, hmid, hevicted, hinformed⟩ :=
        append_spec (hreturns call (List.mem_cons_self ..)) h call.turn
      obtain ⟨after, rest, hrun, hafter, hrest, hinformed'⟩ :=
        ih (fun c hc => hreturns c (List.mem_cons_of_mem _ hc)) hmid
      refine ⟨after, first ++ rest, ?_, ?_, ?_, informed_append hinformed hinformed'⟩
      · refine (System.run_cons _).mpr ⟨mid, first, rest, ?_, hrun, rfl⟩
        simp only [appendSystem, happend]
      · rw [latest_append]
        exact hafter
      · rw [List.flatMap_append, hevicted, hrest]
        rfl

/-- After any sequence of appends that return, the evicted batches followed by the
window are all turns, and each batch came with the summary stored last.  The
window is the most recent part as soon as there was an append, or where it fitted
before. -/
theorem window_is_recent (self : ShortTermMemory) (sessionId : String)
    (initial : List ConversationTurn) (summary : Option String) (redis : Redis)
    (calls : List AppendCall) (hinitial : Holds self sessionId redis initial summary)
    (hreturns : ∀ call ∈ calls, ∀ site, call.env.raises site = false) :
    ∃ after summarised window,
      (appendSystem self sessionId).run redis calls = some (after, summarised) ∧
      self.getWindow sessionId after = some window ∧
      (initial.length ≤ self.window ∨ calls ≠ [] →
        window = (initial ++ calls.map AppendCall.turn).rtake self.window) ∧
      summarised.flatMap SummaryCall.evicted ++ window =
        initial ++ calls.map AppendCall.turn ∧
      Informed summary summarised := by
  obtain ⟨after, summarised, hrun, hafter, hevicted, hinformed⟩ :=
    appends_spec calls hreturns hinitial
  refine ⟨after, summarised, _, hrun, hafter.getWindow, fun hrecent => ?_, ?_, hinformed⟩
  · exact Window.pushAll_recent _ (hrecent.imp_right fun hne => by simpa using hne)
  · rw [hevicted]
    exact Window.pushAll_conserves ..

/-! ## Runs -/

def roleField : List Char := "\x7b\"role\":\"".toList

def contentField : List Char := ",\"content\":\"".toList

/-- The text that pydantic writes for a turn. -/
def turnJson (turn : ConversationTurn) : List Char :=
  roleField ++ (turn.role.toList.flatMap Json.escapeChar ++ '"' ::
    (contentField ++ (turn.content.toList.flatMap Json.escapeChar ++ '"' :: "\x7d".toList)))

/-- Reads what `turnJson` writes. -/
def readTurn (text : List Char) : Option ConversationTurn :=
  (Json.readLiteral .plain (text.drop roleField.length)).bind fun (role, rest) =>
    (Json.readLiteral .plain (rest.drop contentField.length)).map fun (content, _) =>
      ⟨String.ofList role, String.ofList content⟩

theorem readTurn_turnJson (turn : ConversationTurn) : readTurn (turnJson turn) = some turn := by
  rw [readTurn, turnJson, List.drop_left, Json.readLiteral_escaped, Option.bind_some]
  dsimp only
  rw [List.drop_left, Json.readLiteral_escaped, Option.map_some, String.ofList_toList,
    String.ofList_toList]

def turnCodec : TurnCodec where
  modelDumpJson turn := String.ofList (turnJson turn)
  modelValidateJson raw := (decode raw).bind fun text => readTurn text.toList
  round_trip turn := by
    rw [decode_encode, Option.bind_some, String.toList_ofList]
    exact readTurn_turnJson turn

def oneTurn : ShortTermMemory := ⟨turnCodec, 1⟩

/-- A session whose window holds the turns. -/
def holding (self : ShortTermMemory) (sessionId : String) (turns : List ConversationTurn) :
    Redis where
  lists := Function.update (fun _ => []) (msgsKey sessionId) (turns.map self.dump)

theorem holds_holding (self : ShortTermMemory) (sessionId : String)
    (turns : List ConversationTurn) :
    Holds self sessionId (holding self sessionId turns) turns none :=
  ⟨by simp [holding], rfl⟩

def userTurn (content : String) : ConversationTurn := ⟨"user", content⟩

theorem window_is_recent_overfull :
    ∃ after summarised,
      (appendSystem oneTurn "s").run (holding oneTurn "s" [userTurn "a", userTurn "b"])
        [⟨userTurn "c", { chat := fun _ => "" }⟩] = some (after, summarised) ∧
      oneTurn.getWindow "s" after = some [userTurn "c"] ∧
      summarised.flatMap SummaryCall.evicted = [userTurn "a", userTurn "b"] := by
  obtain ⟨after, summarised, window, hrun, hwindow, hrecent, hall, -⟩ :=
    window_is_recent oneTurn "s" [userTurn "a", userTurn "b"] none _
      [⟨userTurn "c", { chat := fun _ => "" }⟩] (holds_holding ..) (by simp)
  have hlast : window = [userTurn "c"] := hrecent (.inr (by simp))
  rw [hlast] at hwindow hall
  exact ⟨after, summarised, hrun, hwindow, List.append_cancel_right hall⟩

/-- A window that is too long stays so until the next append. -/
theorem window_overfull_without_append :
    ∃ after summarised,
      (appendSystem oneTurn "s").run (holding oneTurn "s" [userTurn "a", userTurn "b"]) [] =
        some (after, summarised) ∧
      oneTurn.getWindow "s" after ≠ some ([userTurn "a", userTurn "b"].rtake 1) := by
  refine ⟨_, _, rfl, ?_⟩
  rw [(holds_holding oneTurn "s" _).getWindow]
  decide

end

end Lour.Memory
