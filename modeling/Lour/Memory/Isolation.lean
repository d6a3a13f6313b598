import Lour.Lib.Isolation
import Lour.Memory.Consolidation
import Lour.Memory.Eviction
/-!
# No leakage between sessions

All sessions share one Redis and one ledger, and their coroutines interleave at every
await.  The keys of two sessions differ, so what a session finds, what its summariser is
told and what it leaves behind come from its own coroutines only.
-/

namespace Lour.Memory

open Lour.Lib Lour.Lib.Python

/-- What the sessions share. -/
structure SessionStores where
  redis : Redis := {}
  timeline : List EpisodicEvent := []

/-- What belongs to one session. -/
structure SessionView where
  window : List ByteArray
  summary : Option ByteArray
  timeline : List EpisodicEvent

def SessionStores.ofSession (sessionId : String) (stores : SessionStores) : SessionView where
  window := stores.redis.lists (msgsKey sessionId)
  summary := stores.redis.strings (summaryKey sessionId)
  timeline := stores.timeline.filter fun event => event.sessionId = sessionId

/-- Where a coroutine of the memory layer stands; `ttl` is Redis itself, which drops the
keys of a session when it likes. -/
inductive Job where
  | write (turn : ConversationTurn) (phase : Phase) (calls : List SummaryCall)
  | written (calls : List SummaryCall)
  | recall
  | recallWindow (summary : Option String)
  | recalled (summary : Option String) (recent : List ConversationTurn)
  | clear
  | cleared
  | ttl
  | raised

structure Task where
  sessionId : String
  job : Job

/-- What a step meets: the calls of `append` and whether another call raises, and for
`ttl`, which key is dropped. -/
structure Meets where
  collaborators : Collaborators
  raises : Bool := false
  dropsSummary : Bool := false

/-- What `write` records of a turn. -/
def messageEvent (sessionId : String) (turn : ConversationTurn) : EpisodicEvent where
  sessionId := sessionId
  eventType := "message"
  role := some turn.role
  content := turn.content
  metadata := []

def Task.to (self : Task) (job : Job) : Task := { self with job := job }

/-- Write the turn into the window, then into the ledger. -/
def writeMove (self : ShortTermMemory) (stores : SessionStores) (task : Task) (met : Meets)
    (turn : ConversationTurn) (calls : List SummaryCall) : Phase → Option (SessionStores × Task)
  | .raised => none
  | .returned =>
      if met.raises then some (stores, task.to .raised)
      else
        let event := messageEvent task.sessionId turn
        some ({ stores with timeline := stores.timeline ++ [event] }, task.to (.written calls))
  | phase =>
      let (phase, redis, out) :=
        self.step task.sessionId met.collaborators phase stores.redis
      some ({ stores with redis := redis }, task.to (.write turn phase (calls ++ out)))

/-- `recall` reads the summary and then the window; the long-term memories it searches after
that belong to all sessions. -/
def recallMove (stores : SessionStores) (task : Task) : Job :=
  match stores.redis.get (summaryKey task.sessionId) with
  | none => .recallWindow none
  | some raw =>
      match decode raw with
      | some summary => .recallWindow (some summary)
      | none => .raised

def windowMove (self : ShortTermMemory) (stores : SessionStores) (task : Task)
    (summary : Option String) : Job :=
  match self.getWindow task.sessionId stores.redis with
  | some recent => .recalled summary recent
  | none => .raised

def sessionMove (self : ShortTermMemory) (stores : SessionStores) (task : Task) (met : Meets) :
    Option (SessionStores × Task) :=
  match task.job with
  | .write turn phase calls => writeMove self stores task met turn calls phase
  | .recall => some (stores, task.to (if met.raises then .raised else recallMove stores task))
  | .recallWindow summary =>
      some (stores, task.to
        (if met.raises then .raised else windowMove self stores task summary))
  | .clear =>
      if met.raises then some (stores, task.to .raised)
      else
        let redis := (stores.redis.del (msgsKey task.sessionId)).del (summaryKey task.sessionId)
        some ({ stores with redis := redis }, task.to .cleared)
  | .ttl =>
      let key := if met.dropsSummary then summaryKey task.sessionId else msgsKey task.sessionId
      some ({ stores with redis := stores.redis.del key }, task)
  | .written _ | .recalled _ _ | .cleared | .raised => none

/-- The coroutines of all sessions, interleaved. -/
def sessionSystem (self : ShortTermMemory) : System (Shared SessionStores Task) (ℕ × Meets) Empty :=
  interleaving (sessionMove self)

/-! ## The keys of a session -/

theorem msgsKey_ne {a b : String} (h : a ≠ b) : msgsKey a ≠ msgsKey b := by
  intro heq
  apply h
  have hchars := congrArg String.toList heq
  simp only [msgsKey, String.toList_append] at hchars
  exact String.ext (List.append_cancel_left hchars)

theorem summaryKey_ne {a b : String} (h : a ≠ b) : summaryKey a ≠ summaryKey b := by
  intro heq
  apply h
  have hchars := congrArg String.toList heq
  simp only [summaryKey, String.toList_append] at hchars
  exact String.ext (List.append_cancel_left hchars)

theorem msgsKey_ne_summaryKey (a b : String) : msgsKey a ≠ summaryKey b := by
  intro heq
  have hchars := congrArg String.toList heq
  simp [msgsKey, summaryKey, String.toList_append] at hchars

/-- What a session has in Redis. -/
def kept (sessionId : String) (redis : Redis) : List ByteArray × Option ByteArray :=
  (redis.lists (msgsKey sessionId), redis.strings (summaryKey sessionId))

section Calls

variable {self : ShortTermMemory} {a b : String} {env : Collaborators}

theorem kept_rpush (h : b ≠ a) (redis : Redis) (value : ByteArray) :
    kept b (redis.rpush (msgsKey a) value) = kept b redis :=
  Prod.ext (Redis.lists_rpush_of_ne (msgsKey_ne h) value) rfl

theorem kept_lpop (h : b ≠ a) (redis : Redis) (count : ℕ) :
    kept b (redis.lpop (msgsKey a) count).2 = kept b redis :=
  Prod.ext (Redis.lists_lpop_of_ne (msgsKey_ne h) count) rfl

theorem kept_set (h : b ≠ a) (redis : Redis) (value : ByteArray) :
    kept b (redis.set (summaryKey a) value) = kept b redis :=
  Prod.ext rfl (Redis.strings_set_of_ne (summaryKey_ne h) value)

theorem kept_del_msgs (h : b ≠ a) (redis : Redis) :
    kept b (redis.del (msgsKey a)) = kept b redis :=
  Prod.ext (Redis.lists_del_of_ne (msgsKey_ne h))
    (Redis.strings_del_of_ne (msgsKey_ne_summaryKey a b).symm)

theorem kept_del_summary (h : b ≠ a) (redis : Redis) :
    kept b (redis.del (summaryKey a)) = kept b redis :=
  Prod.ext (Redis.lists_del_of_ne (msgsKey_ne_summaryKey b a))
    (Redis.strings_del_of_ne (summaryKey_ne h))

theorem kept_del_msgs_own (redis : Redis) :
    kept a (redis.del (msgsKey a)) = ([], (kept a redis).2) :=
  Prod.ext (Redis.lists_del redis _)
    (Redis.strings_del_of_ne (msgsKey_ne_summaryKey a a).symm)

theorem kept_del_summary_own (redis : Redis) :
    kept a (redis.del (summaryKey a)) = ((kept a redis).1, none) :=
  Prod.ext (Redis.lists_del_of_ne (msgsKey_ne_summaryKey a a)) (Redis.strings_del redis _)

/-- No call of an `append` touches the keys of another session. -/
theorem call_kept (h : b ≠ a) (phase : Phase) (redis : Redis) :
    kept b (self.call a env phase redis).2.1 = kept b redis := by
  cases phase with
  | rpush turn => exact kept_rpush h redis _
  | lpop overflow =>
      unfold ShortTermMemory.call
      dsimp only
      split
      · exact kept_lpop h redis overflow
      · split
        · exact kept_lpop h redis overflow
        · exact kept_lpop h redis overflow
  | get evicted =>
      unfold ShortTermMemory.call
      dsimp only
      split
      · rfl
      · split <;> rfl
  | set summary => exact kept_set h redis _
  | expire | llen | chat _ _ | returned | raised => rfl

/-- A call of an `append` depends on its own session's keys only. -/
theorem call_agrees {redis other : Redis} (h : kept a redis = kept a other) (phase : Phase) :
    (self.call a env phase redis).1 = (self.call a env phase other).1 ∧
      (self.call a env phase redis).2.2 = (self.call a env phase other).2.2 ∧
      kept a (self.call a env phase redis).2.1 = kept a (self.call a env phase other).2.1 := by
  obtain ⟨hlists, hstrings⟩ := Prod.mk.inj h
  cases phase with
  | rpush turn =>
      refine ⟨rfl, rfl, ?_⟩
      show kept a (redis.rpush (msgsKey a) _) = kept a (other.rpush (msgsKey a) _)
      unfold kept
      rw [Redis.lists_rpush, Redis.lists_rpush, Redis.strings_rpush, Redis.strings_rpush, hlists,
        hstrings]
  | llen =>
      have hlength : redis.llen (msgsKey a) = other.llen (msgsKey a) := congrArg _ hlists
      refine ⟨?_, rfl, h⟩
      unfold ShortTermMemory.call
      dsimp only
      rw [hlength]
  | lpop overflow =>
      have hpopped : (redis.lpop (msgsKey a) overflow).1 = (other.lpop (msgsKey a) overflow).1 := by
        rw [Redis.lpop_popped, Redis.lpop_popped, hlists]
      have hkept : kept a (redis.lpop (msgsKey a) overflow).2 =
          kept a (other.lpop (msgsKey a) overflow).2 := by
        unfold kept
        rw [Redis.lists_lpop, Redis.lists_lpop, Redis.strings_lpop, Redis.strings_lpop, hlists,
          hstrings]
      unfold ShortTermMemory.call
      dsimp only
      rw [hpopped]
      split
      · exact ⟨rfl, rfl, hkept⟩
      · split
        · exact ⟨rfl, rfl, hkept⟩
        · exact ⟨rfl, rfl, hkept⟩
  | get evicted =>
      have hget : redis.get (summaryKey a) = other.get (summaryKey a) := hstrings
      unfold ShortTermMemory.call
      dsimp only
      rw [hget]
      split
      · exact ⟨rfl, rfl, h⟩
      · split
        · exact ⟨rfl, rfl, h⟩
        · exact ⟨rfl, rfl, h⟩
  | set summary =>
      refine ⟨rfl, rfl, ?_⟩
      show kept a (redis.set (summaryKey a) _) = kept a (other.set (summaryKey a) _)
      unfold kept
      rw [Redis.strings_set, Redis.strings_set, Redis.lists_set, Redis.lists_set, hlists]
  | expire | chat _ _ | returned | raised => exact ⟨rfl, rfl, h⟩

theorem step_kept (h : b ≠ a) (phase : Phase) (redis : Redis) :
    kept b (self.step a env phase redis).2.1 = kept b redis := by
  unfold ShortTermMemory.step
  split
  · rfl
  · exact call_kept h phase redis

theorem step_agrees (self : ShortTermMemory) (env : Collaborators) {redis other : Redis}
    (h : kept a redis = kept a other) (phase : Phase) :
    (self.step a env phase redis).1 = (self.step a env phase other).1 ∧
      (self.step a env phase redis).2.2 = (self.step a env phase other).2.2 ∧
      kept a (self.step a env phase redis).2.1 = kept a (self.step a env phase other).2.1 := by
  unfold ShortTermMemory.step
  split
  · exact ⟨rfl, rfl, h⟩
  · exact call_agrees h phase

end Calls

/-! ## One step of a session -/

section Moves

variable {self : ShortTermMemory} {stores stores' other : SessionStores} {task task' : Task}
  {met : Meets} {sessionId : String}

theorem ofSession_eq :
    stores.ofSession sessionId = other.ofSession sessionId ↔
      kept sessionId stores.redis = kept sessionId other.redis ∧
        (stores.timeline.filter fun event => event.sessionId = sessionId) =
          other.timeline.filter fun event => event.sessionId = sessionId := by
  simp only [SessionStores.ofSession, kept, SessionView.mk.injEq, Prod.mk.injEq, and_assoc]

/-- The event of a turn is one of its own session. -/
theorem timeline_message (turn : ConversationTurn) (timeline : List EpisodicEvent) :
    ((timeline ++ [messageEvent task.sessionId turn]).filter
        fun event => event.sessionId = sessionId) =
      (timeline.filter fun event => event.sessionId = sessionId) ++
        if task.sessionId = sessionId then [messageEvent task.sessionId turn] else [] := by
  rw [List.filter_append, List.filter_singleton]
  congr 1
  by_cases h : task.sessionId = sessionId
  · rw [if_pos h]
    simp [messageEvent, h]
  · rw [if_neg h]
    simp [messageEvent, h]

/-- Where a call of `append` is made, the ledger is left alone. -/
theorem writeMove_call {turn : ConversationTurn} {calls : List SummaryCall} {phase : Phase}
    (hreturned : phase ≠ .returned) (hraised : phase ≠ .raised) :
    writeMove self stores task met turn calls phase =
      some ({ stores with
          redis := (self.step task.sessionId met.collaborators phase stores.redis).2.1 },
        task.to (.write turn (self.step task.sessionId met.collaborators phase stores.redis).1
          (calls ++ (self.step task.sessionId met.collaborators phase stores.redis).2.2))) := by
  cases phase with
  | returned => exact absurd rfl hreturned
  | raised => exact absurd rfl hraised
  | _ => rfl

theorem writeMove_stays {turn : ConversationTurn} {calls : List SummaryCall} {phase : Phase}
    (h : writeMove self stores task met turn calls phase = some (stores', task')) :
    task'.sessionId = task.sessionId := by
  by_cases hraised : phase = .raised
  · subst hraised
    cases h
  · by_cases hreturned : phase = .returned
    · subst hreturned
      unfold writeMove at h
      dsimp only at h
      split at h
      · cases h
        rfl
      · cases h
        rfl
    · rw [writeMove_call hreturned hraised] at h
      cases h
      rfl

theorem sessionMove_stays (h : sessionMove self stores task met = some (stores', task')) :
    task'.sessionId = task.sessionId := by
  unfold sessionMove at h
  dsimp only at h
  split at h
  · exact writeMove_stays h
  · cases h
    rfl
  · cases h
    rfl
  · split at h
    · cases h
      rfl
    · cases h
      rfl
  · cases h
    rfl
  all_goals cases h

/-- A step leaves what belongs to another session as it is. -/
theorem writeMove_frame {turn : ConversationTurn} {calls : List SummaryCall} {phase : Phase}
    (hother : sessionId ≠ task.sessionId)
    (h : writeMove self stores task met turn calls phase = some (stores', task')) :
    stores'.ofSession sessionId = stores.ofSession sessionId := by
  by_cases hraised : phase = .raised
  · subst hraised
    cases h
  · by_cases hreturned : phase = .returned
    · subst hreturned
      unfold writeMove at h
      dsimp only at h
      split at h
      · cases h
        rfl
      · cases h
        rw [ofSession_eq]
        refine ⟨rfl, ?_⟩
        show List.filter _ (stores.timeline ++ _) = _
        rw [timeline_message, if_neg hother.symm, List.append_nil]
    · rw [writeMove_call hreturned hraised] at h
      cases h
      rw [ofSession_eq]
      exact ⟨step_kept hother phase stores.redis, rfl⟩

theorem sessionMove_frame (hother : sessionId ≠ task.sessionId)
    (h : sessionMove self stores task met = some (stores', task')) :
    stores'.ofSession sessionId = stores.ofSession sessionId := by
  unfold sessionMove at h
  dsimp only at h
  split at h
  · exact writeMove_frame hother h
  · cases h
    rfl
  · cases h
    rfl
  · split at h
    · cases h
      rfl
    · cases h
      rw [ofSession_eq]
      exact ⟨(kept_del_summary hother _).trans (kept_del_msgs hother _), rfl⟩
  · cases h
    rw [ofSession_eq]
    refine ⟨?_, rfl⟩
    show kept sessionId (stores.redis.del (if _ then _ else _)) = _
    split
    · exact kept_del_summary hother _
    · exact kept_del_msgs hother _
  all_goals cases h

/-- Two stores in which a session finds the same answer its step alike. -/
theorem writeMove_agrees {turn : ConversationTurn} {calls : List SummaryCall} {phase : Phase}
    (hsame : stores.ofSession task.sessionId = other.ofSession task.sessionId)
    (h : writeMove self stores task met turn calls phase = some (stores', task')) :
    ∃ other', writeMove self other task met turn calls phase = some (other', task') ∧
      stores'.ofSession task.sessionId = other'.ofSession task.sessionId := by
  obtain ⟨hkept, htimeline⟩ := ofSession_eq.mp hsame
  by_cases hraised : phase = .raised
  · subst hraised
    cases h
  · by_cases hreturned : phase = .returned
    · subst hreturned
      unfold writeMove at h ⊢
      dsimp only at h ⊢
      split at h
      next hraises =>
        cases h
        rw [if_pos hraises]
        exact ⟨other, rfl, hsame⟩
      next hraises =>
        cases h
        rw [if_neg hraises]
        refine ⟨_, rfl, ofSession_eq.mpr ⟨hkept, ?_⟩⟩
        show List.filter _ (stores.timeline ++ _) = List.filter _ (other.timeline ++ _)
        rw [timeline_message, timeline_message, htimeline]
    · obtain ⟨hphase, hout, hafter⟩ := step_agrees self met.collaborators hkept phase
      rw [writeMove_call hreturned hraised] at h ⊢
      cases h
      rw [hphase, hout]
      exact ⟨_, rfl, ofSession_eq.mpr ⟨hafter, htimeline⟩⟩

theorem sessionMove_agrees
    (hsame : stores.ofSession task.sessionId = other.ofSession task.sessionId)
    (h : sessionMove self stores task met = some (stores', task')) :
    ∃ other', sessionMove self other task met = some (other', task') ∧
      stores'.ofSession task.sessionId = other'.ofSession task.sessionId := by
  obtain ⟨hkept, htimeline⟩ := ofSession_eq.mp hsame
  obtain ⟨hlists, hstrings⟩ := Prod.mk.inj hkept
  have hget : stores.redis.get (summaryKey task.sessionId) =
      other.redis.get (summaryKey task.sessionId) := hstrings
  have hwindow : self.getWindow task.sessionId stores.redis =
      self.getWindow task.sessionId other.redis := by
    unfold ShortTermMemory.getWindow Redis.lrange
    rw [hlists]
  unfold sessionMove at h ⊢
  dsimp only at h ⊢
  split at h
  · exact writeMove_agrees hsame h
  · cases h
    refine ⟨other, ?_, hsame⟩
    unfold recallMove
    rw [hget]
  · cases h
    refine ⟨other, ?_, hsame⟩
    unfold windowMove
    rw [hwindow]
  · split at h
    next hraises =>
      cases h
      rw [if_pos hraises]
      exact ⟨other, rfl, hsame⟩
    next hraises =>
      cases h
      rw [if_neg hraises]
      refine ⟨_, rfl, ofSession_eq.mpr ⟨?_, htimeline⟩⟩
      show kept _ ((stores.redis.del _).del _) = kept _ ((other.redis.del _).del _)
      rw [kept_del_summary_own, kept_del_summary_own, kept_del_msgs_own, kept_del_msgs_own]
  · cases h
    refine ⟨_, rfl, ofSession_eq.mpr ⟨?_, htimeline⟩⟩
    show kept _ (stores.redis.del (if _ then _ else _)) =
      kept _ (other.redis.del (if _ then _ else _))
    split
    · rw [kept_del_summary_own, kept_del_summary_own, hkept]
    · rw [kept_del_msgs_own, kept_del_msgs_own, hkept]
  all_goals cases h

theorem sessions_regional (self : ShortTermMemory) :
    Regional (sessionMove self) Task.sessionId SessionStores.ofSession where
  stays _ _ _ _ _ h := sessionMove_stays h
  frame _ _ _ _ _ h _ hother := sessionMove_frame hother h
  agrees _ _ _ _ _ _ hsame h := sessionMove_agrees hsame h

end Moves

/-! ## Whole runs -/

/-- The stores and coroutines of `shared` and `other` are the same as far as the session
goes. -/
abbrev SameSession (sessionId : String) (shared other : Shared SessionStores Task) : Prop :=
  SameFor Task.sessionId SessionStores.ofSession sessionId shared other

/-- The steps of one session's coroutines, in their order. -/
def ofSession (sessionId : String) (shared : Shared SessionStores Task)
    (labels : List (ℕ × Meets)) : List (ℕ × Meets) :=
  labels.filter (ofRegion sessionId (shared.parties.map Task.sessionId))

theorem SameSession.reads {self : ShortTermMemory} {sessionId : String}
    {shared other : Shared SessionStores Task} (h : SameSession sessionId shared other) :
    self.getWindow sessionId shared.state.redis = self.getWindow sessionId other.state.redis ∧
      ShortTermMemory.getSummary sessionId shared.state.redis =
        ShortTermMemory.getSummary sessionId other.state.redis := by
  obtain ⟨hlists, hstrings⟩ := Prod.mk.inj (ofSession_eq.mp h.seen).1
  constructor
  · unfold ShortTermMemory.getWindow Redis.lrange
    rw [hlists]
  · unfold ShortTermMemory.getSummary Redis.get
    rw [hstrings]

/-- However the coroutines of all sessions interleave, those of one session do what they
would do by themselves, also where the other sessions hold something else, and do
something else: they make the same calls of the summariser, recall the same, and leave
the same window, summary and events. -/
theorem sessions_isolated (self : ShortTermMemory) (sessionId : String)
    (shared other after : Shared SessionStores Task) (labels : List (ℕ × Meets)) (out : List Empty)
    (hsame : SameSession sessionId shared other)
    (hrun : (sessionSystem self).run shared labels = some (after, out)) :
    ∃ alone, (sessionSystem self).run other (ofSession sessionId shared labels) =
        some (alone, []) ∧ SameSession sessionId after alone ∧
      self.getWindow sessionId after.state.redis = self.getWindow sessionId alone.state.redis ∧
      ShortTermMemory.getSummary sessionId after.state.redis =
        ShortTermMemory.getSummary sessionId alone.state.redis := by
  obtain ⟨alone, halone, hend⟩ := (sessions_regional self).run hsame hrun
  exact ⟨alone, halone, hend, SameSession.reads hend⟩

theorem kept_holding {a b : String} (h : b ≠ a) (self : ShortTermMemory)
    (turns : List ConversationTurn) : kept b (holding self a turns) = ([], none) := by
  have hlists : (holding self a turns).lists (msgsKey b) = [] := by
    simp [holding, Function.update_of_ne (msgsKey_ne h)]
  exact Prod.ext hlists rfl

/-- Two sessions write at the same time; by itself the first finds the same, next to a
session that has said something else. -/
theorem sessions_isolated_two :
    let quiet : Meets := { collaborators := { chat := fun _ => "" } }
    let writing (sessionId content : String) : Task :=
      ⟨sessionId, .write (userTurn content) (.rpush (userTurn content)) []⟩
    let shared : Shared SessionStores Task := ⟨{}, [writing "a" "x", writing "b" "y"]⟩
    let other : Shared SessionStores Task :=
      ⟨{ redis := holding oneTurn "b" [userTurn "z"] }, [writing "a" "x", writing "b" "w"]⟩
    let labels := [(0, quiet), (1, quiet), (0, quiet), (1, quiet), (0, quiet), (0, quiet)]
    ∃ alone, (sessionSystem oneTurn).run other (ofSession "a" shared labels) =
        some (alone, []) ∧ oneTurn.getWindow "a" alone.state.redis = some [userTurn "x"] := by
  intro quiet writing shared other labels
  have hkept : kept "a" shared.state.redis = kept "a" other.state.redis :=
    (kept_holding (by decide) oneTurn [userTurn "z"]).symm
  have hsame : SameSession "a" shared other := by
    refine ⟨ofSession_eq.mpr ⟨hkept, rfl⟩, rfl, ?_⟩
    intro i task htask
    match i with
    | 0 => exact Iff.rfl
    | 1 =>
        constructor
        · intro h
          cases h
          exact absurd htask (by decide)
        · intro h
          cases h
          exact absurd htask (by decide)
    | i + 2 => exact Iff.rfl
  obtain ⟨alone, halone, -, hwindow, -⟩ :=
    sessions_isolated oneTurn "a" shared other _ labels _ hsame rfl
  refine ⟨alone, halone, ?_⟩
  rw [← hwindow]
  exact mapM_dump oneTurn [userTurn "x"]

end Lour.Memory
