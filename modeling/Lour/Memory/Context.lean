/-!
# What memory recall hands to the agents
-/

namespace Lour.Memory

/-- One verbatim message in the working window. -/
structure ConversationTurn where
  role : String
  content : String
  deriving DecidableEq

structure MemoryItem where
  content : String

/-- Everything recall assembles for one query. -/
structure MemoryContext where
  summary : Option String := none
  recent : List ConversationTurn := []
  longTerm : List MemoryItem := []

def MemoryContext.isEmpty (self : MemoryContext) : Bool :=
  self.summary.getD "" == "" && self.recent.isEmpty && self.longTerm.isEmpty

end Lour.Memory
