import Lour.Memory.Eviction
/-!
# Where each turn of a session is

The steps of an append once more, with a record beside them of which turns were
pushed, which are in the window, and from which calls of the summariser the
stored summary comes.
-/

namespace Lour.Memory

open Lour.Lib Lour.Lib.Python

/-- A turn with its place in push order. -/
structure Entry where
  number : ℕ
  turn : ConversationTurn
  deriving DecidableEq

/-- A call that folds a batch of turns into the rolling summary. -/
structure Fold where
  batch : List Entry
  prior : Option String
  content : String

def Fold.call (self : Fold) : SummaryCall := ⟨self.batch.map Entry.turn, self.prior, self.content⟩

/-- The calls behind the stored summary, in the order in which each was given the
result of the one before. -/
abbrev Lineage := List Fold

def Lineage.calls (self : Lineage) : List SummaryCall := List.map Fold.call self

/-- The turns that were in the prompts of the calls. -/
def Lineage.entries (self : Lineage) : List Entry := List.flatMap Fold.batch self

structure Ledger where
  pushed : List Entry
  window : List Entry
  lineage : Lineage := []

/-- An append under way: the turns it popped, and the calls behind the summary that
it read or is about to store. -/
structure Pending where
  phase : Phase
  batch : List Entry := []
  lineage : Lineage := []

def Ledger.push (self : Ledger) (turn : ConversationTurn) : Ledger :=
  { self with
    pushed := self.pushed ++ [⟨self.pushed.length, turn⟩]
    window := self.window ++ [⟨self.pushed.length, turn⟩] }

def Ledger.pop (self : Ledger) (overflow : ℕ) : Ledger :=
  { self with window := self.window.drop overflow }

/-- What the call of a phase changes in the record. -/
def Pending.track (self : Pending) (env : Collaborators) (ledger : Ledger) : Pending × Ledger :=
  match self.phase with
  | .rpush turn => (self, ledger.push turn)
  | .lpop overflow => ({ self with batch := ledger.window.take overflow }, ledger.pop overflow)
  | .get _ => ({ self with lineage := ledger.lineage }, ledger)
  | .chat evicted prior =>
      let content := env.chat (summaryPrompt evicted prior)
      ({ self with lineage := self.lineage ++ [⟨self.batch, prior, content⟩] }, ledger)
  | .set _ => (self, { ledger with lineage := self.lineage })
  | _ => (self, ledger)

structure Session where
  redis : Redis
  ledger : Ledger

/-- One step of an append, with the record kept. -/
def ShortTermMemory.advance (self : ShortTermMemory) (sessionId : String) (env : Collaborators)
    (append : Pending) (session : Session) : Pending × Session :=
  let (phase, redis, _) := self.step sessionId env append.phase session.redis
  let (tracked, ledger) :=
    if append.phase.site.any env.raises then (append, session.ledger)
    else append.track env session.ledger
  ({ tracked with phase }, ⟨redis, ledger⟩)

def Phase.isReturned : Phase → Bool
  | .returned => true
  | _ => false

/-- A session in which the turns are in the window. -/
def Session.start (redis : Redis) (turns : List ConversationTurn) : Session :=
  ⟨redis, { pushed := turns.mapIdx Entry.mk, window := turns.mapIdx Entry.mk }⟩

section

variable {self : ShortTermMemory} {sessionId : String} {env : Collaborators}
  {initial : Option String} {append : Pending} {session : Session}

/-- The record changes nothing. -/
theorem advance_step :
    (self.advance sessionId env append session).1.phase =
        (self.step sessionId env append.phase session.redis).1 ∧
      (self.advance sessionId env append session).2.redis =
        (self.step sessionId env append.phase session.redis).2.1 :=
  ⟨rfl, rfl⟩

/-- The record is right about the session. -/
structure Tracked (memory : ShortTermMemory) (sessionId : String) (initial : Option String)
    (session : Session) : Prop where
  holds : Holds memory sessionId session.redis (session.ledger.window.map Entry.turn)
    (latest initial session.ledger.lineage.calls)
  informed : Informed initial session.ledger.lineage.calls
  numbered : session.ledger.pushed.map Entry.number = List.range session.ledger.pushed.length
  suffix : session.ledger.window <:+ session.ledger.pushed

/-- The record is right about an append under way. -/
def Coherent (initial : Option String) (append : Pending) : Prop :=
  match append.phase with
  | .get evicted => append.batch.map Entry.turn = evicted
  | .chat evicted prior =>
      append.batch.map Entry.turn = evicted ∧ Informed initial append.lineage.calls ∧
        prior = latest initial append.lineage.calls
  | .set summary =>
      Informed initial append.lineage.calls ∧
        latest initial append.lineage.calls = some summary ∧
        ∀ entry ∈ append.batch, entry ∈ append.lineage.entries
  | _ => True

/-- What a step of an append can do to the record. -/
inductive Move (size : ℕ) (initial : Option String) (env : Collaborators) :
    Pending → Ledger → Pending → Ledger → Prop
  | raises {append : Pending} {ledger : Ledger}
      (hraises : append.phase.site.any env.raises = true) :
      Move size initial env append ledger { append with phase := .raised } ledger
  | rpush {turn batch lineage ledger} (hreturns : env.raises .rpush = false) :
      Move size initial env ⟨.rpush turn, batch, lineage⟩ ledger ⟨.expire, batch, lineage⟩
        (ledger.push turn)
  | expire {batch lineage ledger} (hreturns : env.raises .expire = false) :
      Move size initial env ⟨.expire, batch, lineage⟩ ledger ⟨.llen, batch, lineage⟩ ledger
  | fits {batch lineage} {ledger : Ledger} (hreturns : env.raises .llen = false)
      (hfits : ledger.window.length ≤ size) :
      Move size initial env ⟨.llen, batch, lineage⟩ ledger ⟨.returned, batch, lineage⟩ ledger
  | overflows {batch lineage} {ledger : Ledger} (hreturns : env.raises .llen = false)
      (hover : size < ledger.window.length) :
      Move size initial env ⟨.llen, batch, lineage⟩ ledger
        ⟨.lpop (ledger.window.length - size), batch, lineage⟩ ledger
  | nothing {overflow batch lineage} {ledger : Ledger} (hreturns : env.raises .lpop = false)
      (hempty : ledger.window.take overflow = []) :
      Move size initial env ⟨.lpop overflow, batch, lineage⟩ ledger ⟨.returned, [], lineage⟩
        (ledger.pop overflow)
  | lpop {overflow batch lineage} {ledger : Ledger} (hreturns : env.raises .lpop = false)
      (hpopped : ledger.window.take overflow ≠ []) :
      Move size initial env ⟨.lpop overflow, batch, lineage⟩ ledger
        ⟨.get ((ledger.window.take overflow).map Entry.turn), ledger.window.take overflow, lineage⟩
        (ledger.pop overflow)
  | get {evicted batch lineage} {ledger : Ledger} (hreturns : env.raises .get = false) :
      Move size initial env ⟨.get evicted, batch, lineage⟩ ledger
        ⟨.chat evicted (latest initial ledger.lineage.calls), batch, ledger.lineage⟩ ledger
  | blank {evicted prior batch lineage ledger} (hreturns : env.raises .chat = false)
      (hblank : strip (env.chat (summaryPrompt evicted prior)) = "") :
      Move size initial env ⟨.chat evicted prior, batch, lineage⟩ ledger
        ⟨.returned, batch, lineage ++ [⟨batch, prior, env.chat (summaryPrompt evicted prior)⟩]⟩
        ledger
  | chat {evicted prior batch lineage ledger} (hreturns : env.raises .chat = false)
      (hanswer : strip (env.chat (summaryPrompt evicted prior)) ≠ "") :
      Move size initial env ⟨.chat evicted prior, batch, lineage⟩ ledger
        ⟨.set (strip (env.chat (summaryPrompt evicted prior))), batch,
          lineage ++ [⟨batch, prior, env.chat (summaryPrompt evicted prior)⟩]⟩
        ledger
  | set {summary batch lineage} {ledger : Ledger} (hreturns : env.raises .set = false) :
      Move size initial env ⟨.set summary, batch, lineage⟩ ledger ⟨.returned, batch, lineage⟩
        { ledger with lineage }
  | idle {append : Pending} {ledger : Ledger} (hidle : append.phase.site = none) :
      Move size initial env append ledger append ledger

theorem advance_raises (hraises : append.phase.site.any env.raises = true) :
    self.advance sessionId env append session = ({ append with phase := .raised }, session) := by
  simp only [ShortTermMemory.advance, ShortTermMemory.step, hraises, if_true]

theorem advance_returns (hreturns : append.phase.site.any env.raises = false) :
    self.advance sessionId env append session =
      ({ (append.track env session.ledger).1 with
          phase := (self.call sessionId env append.phase session.redis).1 },
        ⟨(self.call sessionId env append.phase session.redis).2.1,
          (append.track env session.ledger).2⟩) := by
  simp only [ShortTermMemory.advance, ShortTermMemory.step, hreturns, Bool.false_eq_true, if_false]

theorem Tracked.llen (h : Tracked self sessionId initial session) :
    session.redis.llen (msgsKey sessionId) = session.ledger.window.length := by
  rw [Redis.llen, h.holds.turns, List.length_map, List.length_map]

theorem Tracked.popped (h : Tracked self sessionId initial session) (overflow : ℕ) :
    (session.redis.lpop (msgsKey sessionId) overflow).1 =
      ((session.ledger.window.take overflow).map Entry.turn).map self.dump := by
  rw [Redis.lpop_popped, h.holds.turns, List.map_take, List.map_take]

theorem Tracked.stored (h : Tracked self sessionId initial session) :
    session.redis.get (summaryKey sessionId) =
      (latest initial session.ledger.lineage.calls).map encode :=
  h.holds.summary

/-- Every step is one of the moves. -/
theorem advance_moves (env : Collaborators) (append : Pending)
    (h : Tracked self sessionId initial session) :
    Move self.window initial env append session.ledger
      (self.advance sessionId env append session).1
      (self.advance sessionId env append session).2.ledger := by
  by_cases hraises : append.phase.site.any env.raises = true
  · rw [advance_raises hraises]
    exact .raises hraises
  · have hreturns := Bool.not_eq_true _ ▸ hraises
    rw [advance_returns hreturns]
    obtain ⟨phase, batch, lineage⟩ := append
    cases phase with
    | rpush turn => exact .rpush hreturns
    | expire => exact .expire hreturns
    | llen =>
        simp only [ShortTermMemory.call, h.llen, Pending.track]
        by_cases hover : self.window < session.ledger.window.length
        · rw [if_pos (by omega)]
          exact .overflows hreturns hover
        · rw [if_neg (by omega)]
          exact .fits hreturns (by omega)
    | lpop overflow =>
        have hlpop : env.raises .lpop = false := hreturns
        simp only [ShortTermMemory.call, h.popped, mapM_dump, Pending.track]
        by_cases hempty : session.ledger.window.take overflow = []
        · rw [hempty]
          exact .nothing hlpop hempty
        · have hsome : (((session.ledger.window.take overflow).map Entry.turn).map
              self.dump).isEmpty = false := by simpa using hempty
          rw [hsome]
          exact .lpop hlpop hempty
    | get evicted =>
        have hget : env.raises .get = false := hreturns
        have hcall : self.call sessionId env (.get evicted) session.redis =
            (.chat evicted (latest initial session.ledger.lineage.calls), session.redis, []) := by
          simp only [ShortTermMemory.call, h.stored]
          cases latest initial session.ledger.lineage.calls <;> simp
        rw [hcall]
        exact .get hget
    | chat evicted prior =>
        simp only [ShortTermMemory.call, Pending.track]
        by_cases hblank : strip (env.chat (summaryPrompt evicted prior)) = ""
        · rw [if_neg (not_not.mpr hblank)]
          exact .blank hreturns hblank
        · rw [if_pos hblank]
          exact .chat hreturns hblank
    | set summary => exact .set hreturns
    | returned => exact .idle rfl
    | raised => exact .idle rfl

/-! ## What every step keeps -/

theorem calls_append (before after : Lineage) :
    (before ++ after : Lineage).calls = before.calls ++ after.calls := List.map_append

theorem entries_append (before after : Lineage) :
    (before ++ after : Lineage).entries = before.entries ++ after.entries := List.flatMap_append

theorem Move.coherent {size : ℕ} {ledger ledger' : Ledger} {append' : Pending}
    (hmove : Move size initial env append ledger append' ledger')
    (hinformed : Informed initial ledger.lineage.calls) (hcoherent : Coherent initial append) :
    Coherent initial append' := by
  cases hmove with
  | lpop => exact rfl
  | get => exact ⟨hcoherent, hinformed, rfl⟩
  | @chat evicted prior batch lineage _ _ hanswer =>
      obtain ⟨hbatch, hlineage, hprior⟩ := hcoherent
      have hcall : (Fold.call ⟨batch, prior, env.chat (summaryPrompt evicted prior)⟩).summary =
          some (strip (env.chat (summaryPrompt evicted prior))) := if_neg hanswer
      constructor
      · rw [calls_append]
        apply informed_append hlineage
        exact informed_singleton hprior
      · constructor
        · rw [calls_append, latest_append]
          simp [latest, Lineage.calls, hcall]
        · intro entry hentry
          rw [entries_append]
          apply List.mem_append_right
          simpa [Lineage.entries] using hentry
  | idle => exact hcoherent
  | _ => trivial

theorem Ledger.numbered_push {ledger : Ledger}
    (h : ledger.pushed.map Entry.number = List.range ledger.pushed.length)
    (turn : ConversationTurn) :
    (ledger.push turn).pushed.map Entry.number = List.range (ledger.push turn).pushed.length := by
  rw [Ledger.push, List.map_append, h, List.length_append, List.length_singleton,
    List.range_succ]
  rfl

theorem Ledger.suffix_push {ledger : Ledger} (h : ledger.window <:+ ledger.pushed)
    (turn : ConversationTurn) : (ledger.push turn).window <:+ (ledger.push turn).pushed := by
  obtain ⟨evicted, hevicted⟩ := h
  refine ⟨evicted, ?_⟩
  rw [Ledger.push, ← List.append_assoc, hevicted]

theorem advance_tracked (env : Collaborators)
    (h : Tracked self sessionId initial session) (hcoherent : Coherent initial append) :
    Tracked self sessionId initial (self.advance sessionId env append session).2 := by
  by_cases hraises : append.phase.site.any env.raises = true
  · rw [advance_raises hraises]
    exact h
  · rw [advance_returns (Bool.not_eq_true _ ▸ hraises)]
    obtain ⟨phase, batch, lineage⟩ := append
    cases phase with
    | rpush turn =>
        constructor
        · constructor
          · simp [ShortTermMemory.call, Pending.track, Ledger.push, h.holds.turns]
          · exact h.holds.summary
        · exact h.informed
        · exact Ledger.numbered_push h.numbered turn
        · exact Ledger.suffix_push h.suffix turn
    | lpop overflow =>
        have hlpop : (self.call sessionId env (.lpop overflow) session.redis).2.1 =
            (session.redis.lpop (msgsKey sessionId) overflow).2 := by
          simp only [ShortTermMemory.call, h.popped, mapM_dump]
          split <;> rfl
        constructor
        · constructor
          · rw [hlpop, Redis.lists_lpop, h.holds.turns, ← List.map_drop, ← List.map_drop]
            rfl
          · rw [hlpop]
            exact h.holds.summary
        · exact h.informed
        · exact h.numbered
        · exact (List.drop_suffix ..).trans h.suffix
    | set summary =>
        obtain ⟨hinformed, hlatest, -⟩ := hcoherent
        constructor
        · constructor
          · exact h.holds.turns
          · have hsummary : latest initial
                (Pending.track ⟨.set summary, batch, lineage⟩ env session.ledger).2.lineage.calls =
                  some summary := hlatest
            rw [hsummary]
            exact Redis.strings_set ..
        · exact hinformed
        · exact h.numbered
        · exact h.suffix
    | get evicted =>
        have hget : (self.call sessionId env (.get evicted) session.redis).2.1 = session.redis := by
          simp only [ShortTermMemory.call]
          split
          · rfl
          · split <;> rfl
        rw [hget]
        exact ⟨h.holds, h.informed, h.numbered, h.suffix⟩
    | _ => exact ⟨h.holds, h.informed, h.numbered, h.suffix⟩

theorem isReturned_iff {phase : Phase} : phase.isReturned = true ↔ phase = .returned := by
  cases phase <;> simp [Phase.isReturned]

theorem Tracked.nodup {session : Session} (h : Tracked self sessionId initial session) :
    session.ledger.pushed.Nodup := by
  apply List.Nodup.of_map Entry.number
  rw [h.numbered]
  exact List.nodup_range

theorem tracked_start {redis : Redis} {turns : List ConversationTurn} {summary : Option String}
    (h : Holds self sessionId redis turns summary) :
    Tracked self sessionId summary (Session.start redis turns) := by
  have hnumbered : (turns.mapIdx Entry.mk).map Entry.number = List.range turns.length := by
    apply List.ext_getElem <;> simp
  have hturns : (turns.mapIdx Entry.mk).map Entry.turn = turns := by
    apply List.ext_getElem <;> simp
  constructor
  · rw [Session.start, hturns]
    exact h
  · exact informed_nil summary
  · rw [Session.start, List.length_mapIdx]
    exact hnumbered
  · exact List.suffix_rfl

end

end Lour.Memory
