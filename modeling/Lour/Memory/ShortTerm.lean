import Lour.Lib.JsonText
import Lour.Lib.Redis
import Lour.Lib.System
import Lour.Lib.Window
import Lour.Memory.Context
/-!
# `ShortTermMemory`

An `append` awaits one Redis command or LLM call after the other; a phase says
which comes next.  What overflows the window goes into a rolling summary.  No
key expires here, so the TTL calls change nothing.
-/

namespace Lour.Memory

open Lour.Lib Lour.Lib.Python

/-- How pydantic writes a turn and reads one back. -/
structure TurnCodec where
  modelDumpJson : ConversationTurn → String
  modelValidateJson : ByteArray → Option ConversationTurn
  round_trip : ∀ turn, modelValidateJson (encode (modelDumpJson turn)) = some turn

structure ShortTermMemory where
  codec : TurnCodec
  window : ℕ

/-- The calls that an `append` makes. -/
inductive Site where
  | rpush
  | expire
  | llen
  | lpop
  | get
  | chat
  | set
  deriving DecidableEq

/-- What one `append` meets: the calls that raise, and the content of the LLM's
answer to a prompt. -/
structure Collaborators where
  raises : Site → Bool := fun _ => false
  chat : String → String

/-- The call an `append` makes next. -/
inductive Phase where
  | rpush (turn : ConversationTurn)
  | expire
  | llen
  | lpop (overflow : ℕ)
  | get (evicted : List ConversationTurn)
  | chat (evicted : List ConversationTurn) (prior : Option String)
  | set (summary : String)
  | returned
  | raised

def Phase.site : Phase → Option Site
  | .rpush _ => some .rpush
  | .expire => some .expire
  | .llen => some .llen
  | .lpop _ => some .lpop
  | .get _ => some .get
  | .chat _ _ => some .chat
  | .set _ => some .set
  | .returned => none
  | .raised => none

/-- A call of the summariser: the turns and the summary it was given, and its
answer. -/
structure SummaryCall where
  evicted : List ConversationTurn
  prior : Option String
  content : String

/-- What the call has stored: nothing where the answer is blank. -/
def SummaryCall.summary (self : SummaryCall) : Option String :=
  let summary := strip self.content
  if summary = "" then none else some summary

def transcript (evicted : List ConversationTurn) : String :=
  "\n".intercalate (evicted.map fun t => t.role ++ ": " ++ t.content)

def summaryPrompt (evicted : List ConversationTurn) (prior : Option String) : String :=
  "You maintain a concise running summary of a conversation so older " ++
    "turns can be dropped without losing context. Update the summary to " ++
    "incorporate the new (older) turns below. Keep it factual and brief " ++
    "(a few sentences).\n\n" ++
    "Current summary:\n" ++ (if prior.getD "" = "" then "(none yet)" else prior.getD "") ++
    "\n\n" ++
    "Older turns to fold in:\n" ++ transcript evicted ++ "\n\n" ++
    "Updated summary:"

def msgsKey (sessionId : String) : String := "stm:msgs:" ++ sessionId

def summaryKey (sessionId : String) : String := "stm:sum:" ++ sessionId

namespace ShortTermMemory

variable (self : ShortTermMemory) (sessionId : String)

def dump (turn : ConversationTurn) : ByteArray := encode (self.codec.modelDumpJson turn)

/-- The call of the phase, and what comes after it. -/
def call (env : Collaborators) : Phase → Redis → Phase × Redis × List SummaryCall
  | .rpush turn, redis => (.expire, redis.rpush (msgsKey sessionId) (self.dump turn), [])
  | .expire, redis => (.llen, redis, [])
  | .llen, redis =>
      let overflow := redis.llen (msgsKey sessionId) - self.window
      (if 0 < overflow then .lpop overflow else .returned, redis, [])
  | .lpop overflow, redis =>
      let (raw, redis) := redis.lpop (msgsKey sessionId) overflow
      if raw.isEmpty then (.returned, redis, [])
      else
        match raw.mapM self.codec.modelValidateJson with
        | some evicted => (.get evicted, redis, [])
        | none => (.raised, redis, [])
  | .get evicted, redis =>
      match redis.get (summaryKey sessionId) with
      | none => (.chat evicted none, redis, [])
      | some raw =>
          match decode raw with
          | some prior => (.chat evicted (some prior), redis, [])
          | none => (.raised, redis, [])
  | .chat evicted prior, redis =>
      let content := env.chat (summaryPrompt evicted prior)
      let summary := strip content
      (if summary ≠ "" then .set summary else .returned, redis, [{ evicted, prior, content }])
  | .set summary, redis =>
      (.returned, redis.set (summaryKey sessionId) (encode summary), [])
  | .returned, redis => (.returned, redis, [])
  | .raised, redis => (.raised, redis, [])

/-- A call that raises has had no effect. -/
def step (env : Collaborators) (phase : Phase) (redis : Redis) :
    Phase × Redis × List SummaryCall :=
  if phase.site.any env.raises then (.raised, redis, []) else self.call sessionId env phase redis

def steps (env : Collaborators) : ℕ → Phase → Redis → Phase × Redis × List SummaryCall
  | 0, phase, redis => (phase, redis, [])
  | n + 1, phase, redis =>
      let (phase, redis, out) := self.step sessionId env phase redis
      let (phase, redis, rest) := steps env n phase redis
      (phase, redis, out ++ rest)

/-- An `append` makes seven calls at most. -/
def append (env : Collaborators) (turn : ConversationTurn) (redis : Redis) :
    Phase × Redis × List SummaryCall :=
  self.steps sessionId env 7 (.rpush turn) redis

def getWindow (redis : Redis) : Option (List ConversationTurn) :=
  (redis.lrange (msgsKey sessionId)).mapM self.codec.modelValidateJson

def getSummary (redis : Redis) : Option String :=
  (redis.get (summaryKey sessionId)).bind decode

end ShortTermMemory

structure AppendCall where
  turn : ConversationTurn
  env : Collaborators

/-- Appends made one after the other; the outputs are the calls of the summariser. -/
def appendSystem (self : ShortTermMemory) (sessionId : String) :
    System Redis AppendCall SummaryCall :=
  ⟨fun redis call =>
    let (_, after, calls) := self.append sessionId call.env call.turn redis
    some (after, calls)⟩

end Lour.Memory
