import Lour.Lib.Doubles
import Lour.Lib.OrderedDict
/-!
# What `MetricsRegistry` counts

The counters of the process, with what one observation makes of each.  Floats are finite
here; an infinite sum is left out.
-/

namespace Lour.Core

open Lour.Lib Lour.Lib.Python

structure LatencyStat where
  count : ℕ := 0
  totalMs : ℚ := 0
  /-- `none` for the `inf` it starts at. -/
  minMs : Option ℚ := none
  maxMs : ℚ := 0
  deriving DecidableEq

/-- `min(self.min_ms, ms)`. -/
def lesser (minMs : Option ℚ) (ms : ℚ) : ℚ :=
  match minMs with
  | none => ms
  | some least => if ms < least then ms else least

/-- `max(self.max_ms, ms)`. -/
def greater (maxMs ms : ℚ) : ℚ := if maxMs < ms then ms else maxMs

def LatencyStat.observe (self : LatencyStat) (ms : ℚ) : LatencyStat where
  count := self.count + 1
  totalMs := toDouble (self.totalMs + ms)
  minMs := some (lesser self.minMs ms)
  maxMs := greater self.maxMs ms

def LatencyStat.avgMs (self : LatencyStat) : ℚ :=
  if self.count = 0 then 0 else toDouble (self.totalMs / self.count)

structure LatencyEntry where
  count : ℕ
  avgMs : ℚ
  minMs : Option ℚ
  maxMs : ℚ
  deriving DecidableEq

def LatencyStat.asDict (self : LatencyStat) : LatencyEntry where
  count := self.count
  avgMs := roundTo 2 self.avgMs
  minMs := if self.count = 0 then some 0 else self.minMs.map (roundTo 2)
  maxMs := roundTo 2 self.maxMs

/-- `ok / calls` to three places, 0 without calls. -/
def rate (ok calls : ℕ) : ℚ := if calls = 0 then 0 else roundTo 3 (toDouble (ok / calls))

structure ToolStat where
  calls : ℕ := 0
  ok : ℕ := 0
  deriving DecidableEq

def ToolStat.count (self : ToolStat) (ok : Bool) : ToolStat where
  calls := self.calls + 1
  ok := if ok then self.ok + 1 else self.ok

structure ToolEntry where
  calls : ℕ
  ok : ℕ
  successRate : ℚ
  deriving DecidableEq

/-- `ToolStat.as_dict`. -/
def toolEntry (stat : ToolStat) : ToolEntry where
  calls := stat.calls
  ok := stat.ok
  successRate := rate stat.ok stat.calls

structure CostStat where
  calls : ℕ := 0
  promptTokens : ℕ := 0
  completionTokens : ℕ := 0
  usd : ℚ := 0
  deriving DecidableEq

/-- One call of a model. -/
structure Usage where
  promptTokens : ℕ
  completionTokens : ℕ
  usd : ℚ

def CostStat.charge (self : CostStat) (usage : Usage) : CostStat where
  calls := self.calls + 1
  promptTokens := self.promptTokens + usage.promptTokens
  completionTokens := self.completionTokens + usage.completionTokens
  usd := toDouble (self.usd + usage.usd)

def CostStat.asDict (self : CostStat) : CostStat := { self with usd := roundTo 6 self.usd }

/-- `_RetrievalAgg`. -/
structure RetrievalAgg where
  count : ℕ := 0
  total : ℚ := 0
  deriving DecidableEq

def RetrievalAgg.observe (self : RetrievalAgg) (value : ℚ) : RetrievalAgg where
  count := self.count + 1
  total := toDouble (self.total + value)

def RetrievalAgg.avg (self : RetrievalAgg) : ℚ :=
  if self.count = 0 then 0 else toDouble (self.total / self.count)

structure MetricsRegistry where
  latency : OrderedDict String LatencyStat
  tools : OrderedDict String ToolStat
  cost : OrderedDict String CostStat
  retrieval : RetrievalAgg

namespace MetricsRegistry

def empty : MetricsRegistry := ⟨.empty, .empty, .empty, {}⟩

def stat (self : MetricsRegistry) (name : String) : ToolStat := (self.tools.get? name).getD {}

/-- `record_tool`, undisturbed. -/
def recordTool (self : MetricsRegistry) (name : String) (ok : Bool) : MetricsRegistry :=
  { self with tools := self.tools.set name ((self.stat name).count ok) }

@[simp] theorem stat_empty (name : String) : empty.stat name = {} := rfl

theorem stat_recordTool (self : MetricsRegistry) (name other : String) (ok : Bool) :
    (self.recordTool name ok).stat other =
      if other = name then (self.stat name).count ok else self.stat other := by
  rw [stat, recordTool, OrderedDict.get?_set]
  split
  · rfl
  · rfl

end MetricsRegistry

end Lour.Core
