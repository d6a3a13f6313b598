import Lour.Memory.Isolation
import Lour.Memory.Loss
/-!
# What the memory manager has of every session

`write` puts a turn into the window of its session and enters it in the ledger; `recall`
reads the summary and the window.  As long as the writes return, each session has its own
turns in order: the ledger all of them, the window the most recent ones, and the
summariser was given the others.
-/

namespace Lour.Memory

open Lour.Lib Lour.Lib.Python

/-- A write that has returned, with the calls of the summariser it made. -/
structure Saved where
  sessionId : String
  turn : ConversationTurn
  calls : List SummaryCall

namespace ShortTermMemory

variable (self : ShortTermMemory)

/-- `MemoryManager.write`; `none` where a call of it raises. -/
def save (stores : SessionStores) (sessionId : String) (call : WriteCall) :
    Option (SessionStores × List Saved) :=
  match self.append sessionId call.env call.turn stores.redis with
  | (.returned, redis, calls) =>
      if call.recordRaises then none
      else
        let event := messageEvent sessionId call.turn
        some (⟨redis, stores.timeline ++ [event]⟩, [⟨sessionId, call.turn, calls⟩])
  | _ => none

/-- `MemoryManager.recall`, with what the search in the long-term memory has found. -/
def memoryRecall (stores : SessionStores) (sessionId : String) (longTerm : List MemoryItem) :
    Option MemoryContext :=
  let recalled (summary : Option String) : Option MemoryContext :=
    (self.getWindow sessionId stores.redis).map fun recent => { summary, recent, longTerm }
  match stores.redis.get (summaryKey sessionId) with
  | none => recalled none
  | some raw => (decode raw).bind fun summary => recalled (some summary)

end ShortTermMemory

/-- Writes made one after the other, of whatever sessions. -/
def saveSystem (self : ShortTermMemory) :
    System SessionStores (String × WriteCall) Saved :=
  ⟨fun stores (sessionId, call) => self.save stores sessionId call⟩

/-- The turns of a session that were written. -/
def saidIn (sessionId : String) (saved : List Saved) : List ConversationTurn :=
  (saved.filter fun entry => entry.sessionId = sessionId).map Saved.turn

/-- What the summariser was asked for a session. -/
def summarisedIn (sessionId : String) (saved : List Saved) : List SummaryCall :=
  (saved.filter fun entry => entry.sessionId = sessionId).flatMap Saved.calls

/-- What the stores have of a session after the writes. -/
structure Remembers (memory : ShortTermMemory) (sessionId : String) (stores : SessionStores)
    (saved : List Saved) : Prop where
  holds : Holds memory sessionId stores.redis ((saidIn sessionId saved).rtake memory.window)
    (latest none (summarisedIn sessionId saved))
  ledger : (stores.timeline.filter fun event => event.sessionId = sessionId) =
    (saidIn sessionId saved).map (messageEvent sessionId)
  evicted : (summarisedIn sessionId saved).flatMap SummaryCall.evicted ++
    (saidIn sessionId saved).rtake memory.window = saidIn sessionId saved
  informed : Informed none (summarisedIn sessionId saved)

section

variable {self : ShortTermMemory} {sessionId : String} {stores after : SessionStores}
  {saved out : List Saved}

theorem saidIn_append (sessionId : String) (saved out : List Saved) :
    saidIn sessionId (saved ++ out) = saidIn sessionId saved ++ saidIn sessionId out := by
  unfold saidIn
  rw [List.filter_append, List.map_append]

theorem summarisedIn_append (sessionId : String) (saved out : List Saved) :
    summarisedIn sessionId (saved ++ out) =
      summarisedIn sessionId saved ++ summarisedIn sessionId out := by
  unfold summarisedIn
  rw [List.filter_append, List.flatMap_append]

theorem saidIn_singleton (entry : Saved) :
    saidIn sessionId [entry] = if entry.sessionId = sessionId then [entry.turn] else [] := by
  unfold saidIn
  rw [List.filter_singleton]
  by_cases h : entry.sessionId = sessionId
  · simp [h]
  · simp [h]

theorem summarisedIn_singleton (entry : Saved) :
    summarisedIn sessionId [entry] = if entry.sessionId = sessionId then entry.calls else [] := by
  unfold summarisedIn
  rw [List.filter_singleton]
  by_cases h : entry.sessionId = sessionId
  · simp [h]
  · simp [h]

theorem remembers_nil (self : ShortTermMemory) (sessionId : String) :
    Remembers self sessionId {} [] := by
  have hnone : (saidIn sessionId []).rtake self.window = [] := List.rtake_nil _
  constructor
  · rw [hnone]
    exact ⟨rfl, rfl⟩
  · rfl
  · rw [hnone]
    rfl
  · exact informed_nil none

/-! ## Calls that return -/

theorem steps_raised (env : Collaborators) (n : ℕ) (redis : Redis) :
    self.steps sessionId env n .raised redis = (.raised, redis, []) := by
  induction n with
  | zero => rfl
  | succ n ih =>
      have hstep : self.step sessionId env .raised redis = (.raised, redis, []) := rfl
      simp only [ShortTermMemory.steps, hstep, ih]
      rfl

/-- Where an append returns, none of the calls it came to has raised. -/
theorem steps_of_returned {env : Collaborators} {n : ℕ} {phase : Phase} {redis redis' : Redis}
    {calls : List SummaryCall}
    (h : self.steps sessionId env n phase redis = (.returned, redis', calls)) :
    self.steps sessionId { chat := env.chat } n phase redis = (.returned, redis', calls) := by
  induction n generalizing phase redis redis' calls with
  | zero => exact h
  | succ n ih =>
      have hquiet : ∀ site, (⟨fun _ => false, env.chat⟩ : Collaborators).raises site = false :=
        fun _ => rfl
      by_cases hraises : phase.site.any env.raises = true
      · have hstep : self.step sessionId env phase redis = (.raised, redis, []) := by
          rw [ShortTermMemory.step, if_pos hraises]
        simp only [ShortTermMemory.steps, hstep, steps_raised] at h
        cases h
      · have hstep : self.step sessionId env phase redis =
            self.call sessionId env phase redis := by
          rw [ShortTermMemory.step, if_neg hraises]
        have hcall : self.call sessionId env phase redis =
            self.call sessionId { chat := env.chat } phase redis := by
          cases phase <;> rfl
        simp only [ShortTermMemory.steps, hstep, hcall] at h
        simp only [ShortTermMemory.steps, step_of_returns hquiet]
        obtain ⟨hphase, hrest⟩ := Prod.mk.inj h
        obtain ⟨hredis, hcalls⟩ := Prod.mk.inj hrest
        rw [ih (Prod.ext hphase (Prod.ext hredis rfl))]
        exact congrArg _ (congrArg _ hcalls)

theorem steps_kept {other : String} (h : sessionId ≠ other) (env : Collaborators) (n : ℕ)
    (phase : Phase) (redis : Redis) :
    kept sessionId (self.steps other env n phase redis).2.1 = kept sessionId redis := by
  induction n generalizing phase redis with
  | zero => rfl
  | succ n ih =>
      calc kept sessionId (self.steps other env (n + 1) phase redis).2.1
          = kept sessionId (self.step other env phase redis).2.1 := ih _ _
        _ = kept sessionId redis := step_kept h phase redis

theorem Holds.of_kept {redis redis' : Redis} {turns : List ConversationTurn}
    {summary : Option String} (h : Holds self sessionId redis turns summary)
    (hkept : kept sessionId redis' = kept sessionId redis) :
    Holds self sessionId redis' turns summary := by
  obtain ⟨hlists, hstrings⟩ := Prod.mk.inj hkept
  exact ⟨hlists.trans h.turns, hstrings.trans h.summary⟩

/-! ## One write -/

theorem save_cases {name : String} {call : WriteCall}
    (h : self.save stores name call = some (after, out)) :
    ∃ redis calls, self.append name call.env call.turn stores.redis = (.returned, redis, calls) ∧
      after = ⟨redis, stores.timeline ++ [messageEvent name call.turn]⟩ ∧
      out = [⟨name, call.turn, calls⟩] := by
  unfold ShortTermMemory.save at h
  split at h
  next redis calls happend =>
      split at h
      · cases h
      · cases h
        exact ⟨redis, calls, happend, rfl, rfl⟩
  next => cases h

theorem ledger_save (name : String) (turn : ConversationTurn) (timeline : List EpisodicEvent) :
    ((timeline ++ [messageEvent name turn]).filter fun event => event.sessionId = sessionId) =
      (timeline.filter fun event => event.sessionId = sessionId) ++
        if name = sessionId then [messageEvent name turn] else [] :=
  @timeline_message ⟨name, .cleared⟩ sessionId turn timeline

/-- A write of the session. -/
theorem Remembers.save {call : WriteCall} (h : Remembers self sessionId stores saved)
    (hsave : self.save stores sessionId call = some (after, out)) :
    Remembers self sessionId after (saved ++ out) := by
  obtain ⟨redis, calls, happend, rfl, rfl⟩ := save_cases hsave
  have hquiet : ∀ site, (⟨fun _ => false, call.env.chat⟩ : Collaborators).raises site = false :=
    fun _ => rfl
  obtain ⟨redis', calls', happend', hholds, hevicted, hinformed⟩ :=
    append_spec hquiet h.holds call.turn
  obtain ⟨rfl, rfl⟩ : redis = redis' ∧ calls = calls' := by
    have hsame := (steps_of_returned happend).symm.trans happend'
    exact Prod.mk.inj (Prod.mk.inj hsame).2
  have hsaid : saidIn sessionId (saved ++ [⟨sessionId, call.turn, calls⟩]) =
      saidIn sessionId saved ++ [call.turn] := by
    rw [saidIn_append, saidIn_singleton, if_pos rfl]
  have hasked : summarisedIn sessionId (saved ++ [⟨sessionId, call.turn, calls⟩]) =
      summarisedIn sessionId saved ++ calls := by
    rw [summarisedIn_append, summarisedIn_singleton, if_pos rfl]
  have hkept : (Window.push self.window ((saidIn sessionId saved).rtake self.window)
      call.turn).2 = (saidIn sessionId saved ++ [call.turn]).rtake self.window := by
    rw [Window.push_kept]
    exact Window.rtake_append_rtake self.window _ _
  constructor
  · rw [hsaid, hasked, latest_append, ← hkept]
    exact hholds
  · rw [hsaid, ledger_save, if_pos rfl, h.ledger, List.map_append]
    rfl
  · have hconserved := Window.push_conserves self.window
      ((saidIn sessionId saved).rtake self.window) call.turn
    calc (summarisedIn sessionId (saved ++ [⟨sessionId, call.turn, calls⟩])).flatMap
            SummaryCall.evicted ++ (saidIn sessionId (saved ++ [_])).rtake self.window
        = (summarisedIn sessionId saved).flatMap SummaryCall.evicted ++
            ((Window.push self.window ((saidIn sessionId saved).rtake self.window)
              call.turn).1 ++ (Window.push self.window
                ((saidIn sessionId saved).rtake self.window) call.turn).2) := by
          rw [hsaid, hasked, List.flatMap_append, hevicted, hkept, List.append_assoc]
      _ = saidIn sessionId saved ++ [call.turn] := by
          rw [hconserved, ← List.append_assoc, h.evicted]
      _ = saidIn sessionId (saved ++ [⟨sessionId, call.turn, calls⟩]) := hsaid.symm
  · rw [hasked]
    exact informed_append h.informed hinformed

/-- A write of another session. -/
theorem Remembers.save_of_ne {name : String} {call : WriteCall} (hne : sessionId ≠ name)
    (h : Remembers self sessionId stores saved)
    (hsave : self.save stores name call = some (after, out)) :
    Remembers self sessionId after (saved ++ out) := by
  obtain ⟨redis, calls, happend, rfl, rfl⟩ := save_cases hsave
  have hsaid : saidIn sessionId (saved ++ [⟨name, call.turn, calls⟩]) =
      saidIn sessionId saved := by
    rw [saidIn_append, saidIn_singleton, if_neg hne.symm, List.append_nil]
  have hasked : summarisedIn sessionId (saved ++ [⟨name, call.turn, calls⟩]) =
      summarisedIn sessionId saved := by
    rw [summarisedIn_append, summarisedIn_singleton, if_neg hne.symm, List.append_nil]
  constructor
  · rw [hsaid, hasked]
    apply h.holds.of_kept
    calc kept sessionId redis
        = kept sessionId (self.append name call.env call.turn stores.redis).2.1 := by
          rw [happend]
      _ = kept sessionId stores.redis := steps_kept hne call.env 7 (.rpush call.turn) stores.redis
  · rw [hsaid, ledger_save, if_neg hne.symm, List.append_nil]
    exact h.ledger
  · rw [hsaid, hasked]
    exact h.evicted
  · rw [hasked]
    exact h.informed

/-- Writes of whatever sessions keep the account of every session. -/
theorem Remembers.run {writes : List (String × WriteCall)}
    (h : Remembers self sessionId stores saved)
    (hrun : (saveSystem self).run stores writes = some (after, out)) :
    Remembers self sessionId after (saved ++ out) := by
  apply System.run_induction (P := Remembers self sessionId) _ h hrun
  intro stores saved write after out _ h hsave
  by_cases hname : sessionId = write.1
  · rw [hname] at h ⊢
    exact h.save hsave
  · exact h.save_of_ne hname hsave

/-- Recall finds the most recent turns of the session, and the summary stored last. -/
theorem Remembers.memoryRecall (h : Remembers self sessionId stores saved)
    (longTerm : List MemoryItem) :
    self.memoryRecall stores sessionId longTerm =
      some { summary := latest none (summarisedIn sessionId saved),
             recent := (saidIn sessionId saved).rtake self.window, longTerm } := by
  unfold ShortTermMemory.memoryRecall Redis.get
  dsimp only
  rw [h.holds.summary, h.holds.getWindow]
  cases latest none (summarisedIn sessionId saved) with
  | none => rfl
  | some summary =>
      rw [Option.map_some]
      simp only [decode_encode]
      rfl

end

end Lour.Memory
