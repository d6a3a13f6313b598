import Lour.Core.Counters
import Lour.Lib.Monitor
import Lour.Lib.Tally
/-!
# `MetricsRegistry`

The threads of the process record into one registry and read it.  A method's body is a list
of statements under the registry's lock, and an assignment such as `stat.calls += 1` is two
of them, since another thread may run in between.  Floats are finite here; an infinite sum is
left out.
-/

namespace Lour.Core

open Lour.Lib Lour.Lib.Python

/-! ## Prices -/

/-- `_PRICE_PER_MTOK`, with the prices as they are written. -/
def pricePerMtok : List (String × ℚ × ℚ) :=
  [("claude-3-5-haiku", 80 / 100, 4), ("claude-3-5-sonnet", 3, 15), ("claude-3-opus", 15, 75),
    ("gpt-4o-mini", 15 / 100, 60 / 100), ("gpt-4o", 250 / 100, 10),
    ("deepseek", 27 / 100, 110 / 100)]

/-- One turn of the loop of `_price_for`; what is best so far, with the length of its name. -/
def better (name : List Char) (best : Option ((ℚ × ℚ) × ℕ)) (row : String × ℚ × ℚ) :
    Option ((ℚ × ℚ) × ℕ) :=
  if row.1.toList.isPrefixOf name then
    match best with
    | none => some (row.2, row.1.length)
    | some (_, bestLen) => if bestLen < row.1.length then some (row.2, row.1.length) else best
  else best

/-- `_price_for`. -/
def priceFor (table : List (String × ℚ × ℚ)) (model : String) : ℚ × ℚ :=
  match table.foldl (better (model.toList.flatMap lowerChar)) none with
  | none => (0, 0)
  | some (price, _) => price

/-- Of the rows whose name the model's begins with, one with the longest. -/
structure LongestMatch (table : List (String × ℚ × ℚ)) (name : List Char)
    (best : (ℚ × ℚ) × ℕ) : Prop where
  row : ∃ row ∈ table, row.1.toList.isPrefixOf name = true ∧ best = (row.2, row.1.length)
  longest : ∀ row ∈ table, row.1.toList.isPrefixOf name = true → row.1.length ≤ best.2

theorem foldl_better (table : List (String × ℚ × ℚ)) (name : List Char) :
    match table.foldl (better name) none with
    | none => ∀ row ∈ table, row.1.toList.isPrefixOf name = false
    | some best => LongestMatch table name best := by
  induction table using List.reverseRecOn with
  | nil => exact fun _ hrow => absurd hrow List.not_mem_nil
  | append_singleton table row ih =>
      rw [List.foldl_append, List.foldl_cons, List.foldl_nil, better.eq_def]
      cases hmatch : row.1.toList.isPrefixOf name with
      | false =>
          rw [if_neg Bool.false_ne_true]
          cases hbest : table.foldl (better name) none with
          | none =>
              rw [hbest] at ih
              exact List.forall_mem_append.mpr ⟨ih, List.forall_mem_singleton.mpr hmatch⟩
          | some best =>
              rw [hbest] at ih
              obtain ⟨⟨found, hfound, hfits⟩, hlongest⟩ := ih
              refine ⟨⟨found, List.mem_append_left _ hfound, hfits⟩,
                List.forall_mem_append.mpr ⟨hlongest, List.forall_mem_singleton.mpr ?_⟩⟩
              intro hrow
              rw [hmatch] at hrow
              exact Bool.noConfusion hrow
      | true =>
          rw [if_pos rfl]
          have hlast : row ∈ table ++ [row] := List.mem_append_right _ (List.mem_singleton_self row)
          cases hbest : table.foldl (better name) none with
          | none =>
              rw [hbest] at ih
              refine ⟨⟨row, hlast, hmatch, rfl⟩,
                List.forall_mem_append.mpr ⟨?_, List.forall_mem_singleton.mpr fun _ => le_rfl⟩⟩
              intro other hother hfits
              rw [ih other hother] at hfits
              exact Bool.noConfusion hfits
          | some best =>
              rw [hbest] at ih
              obtain ⟨⟨found, hfound, hfits⟩, hlongest⟩ := ih
              by_cases hlt : best.2 < row.1.length
              · simp only [if_pos hlt]
                refine ⟨⟨row, hlast, hmatch, rfl⟩,
                  List.forall_mem_append.mpr ⟨?_, List.forall_mem_singleton.mpr fun _ => le_rfl⟩⟩
                intro other hother hother'
                exact le_of_lt (lt_of_le_of_lt (hlongest other hother hother') hlt)
              · simp only [if_neg hlt]
                refine ⟨⟨found, List.mem_append_left _ hfound, hfits⟩,
                  List.forall_mem_append.mpr ⟨hlongest, List.forall_mem_singleton.mpr ?_⟩⟩
                exact fun _ => Nat.le_of_not_lt hlt

/-- A model has the price of the longest name that its own begins with, and is free where
there is none; the order of the table does not matter to it. -/
theorem priceFor_longest (table : List (String × ℚ × ℚ)) (model : String) :
    (∃ bestLen, LongestMatch table (model.toList.flatMap lowerChar)
        (priceFor table model, bestLen)) ∨
      priceFor table model = (0, 0) ∧
        ∀ row ∈ table, row.1.toList.isPrefixOf (model.toList.flatMap lowerChar) = false := by
  have hfold := foldl_better table (model.toList.flatMap lowerChar)
  unfold priceFor
  cases hbest : table.foldl (better (model.toList.flatMap lowerChar)) none with
  | none =>
      rw [hbest] at hfold
      exact .inr ⟨rfl, hfold⟩
  | some best =>
      rw [hbest] at hfold
      exact .inl ⟨best.2, hfold⟩

/-- What a call of a model costs. -/
def usdOf (model : String) (promptTokens completionTokens : ℕ) : ℚ :=
  let (inPrice, outPrice) := priceFor pricePerMtok model
  toDouble (toDouble (toDouble (promptTokens / 1000000) * toDouble inPrice) +
    toDouble (toDouble (completionTokens / 1000000) * toDouble outPrice))

/-! ## The report -/

/-- What `snapshot` returns. -/
structure Snapshot where
  latencyByLayer : List (String × LatencyEntry) := []
  toolsByName : List (String × ToolEntry) := []
  overallSuccessRate : ℚ := 0
  observations : ℕ := 0
  avgRecall : ℚ := 0
  costByModel : List (String × CostStat) := []
  totalUsd : ℚ := 0
  deriving DecidableEq

/-! ## The methods -/

/-- The locals of a call; of an object of the registry, the values it had when it was last
read. -/
structure Frame where
  latency : LatencyStat := {}
  tool : ToolStat := {}
  cost : CostStat := {}
  retrieval : RetrievalAgg := {}
  totalCalls : ℕ := 0
  totalOk : ℕ := 0
  report : Snapshot := {}

abbrev Statement := MetricsRegistry → Frame → MetricsRegistry × Frame

/-- One of the registry's dictionaries, and the local that stands for an object of it. -/
structure Table (α : Type) where
  fresh : α
  dict : MetricsRegistry → OrderedDict String α
  withDict : MetricsRegistry → OrderedDict String α → MetricsRegistry
  seen : Frame → α
  see : Frame → α → Frame

namespace Table

variable {α : Type} (table : Table α)

def current (registry : MetricsRegistry) (key : String) : α :=
  ((table.dict registry).get? key).getD table.fresh

/-- `stat = d.setdefault(key, fresh)`. -/
def setdefault (key : String) : Statement := fun registry frame =>
  (table.withDict registry ((table.dict registry).setdefault key table.fresh), frame)

def load (key : String) : Statement := fun registry frame =>
  (registry, table.see frame (table.current registry key))

/-- An attribute of the object is set to what is computed from the local. -/
def store (key : String) (write : α → α → α) : Statement := fun registry frame =>
  (table.withDict registry
    ((table.dict registry).set key (write (table.seen frame) (table.current registry key))), frame)

/-- The assignments to the attributes of the object under a key. -/
def assign (key : String) (writes : List (α → α → α)) : List Statement :=
  table.setdefault key :: writes.flatMap fun write => [table.load key, table.store key write]

end Table

def latencyTable : Table LatencyStat where
  fresh := {}
  dict registry := registry.latency
  withDict registry dict := { registry with latency := dict }
  seen frame := frame.latency
  see frame stat := { frame with latency := stat }

def toolTable : Table ToolStat where
  fresh := {}
  dict registry := registry.tools
  withDict registry dict := { registry with tools := dict }
  seen frame := frame.tool
  see frame stat := { frame with tool := stat }

def costTable : Table CostStat where
  fresh := {}
  dict registry := registry.cost
  withDict registry dict := { registry with cost := dict }
  seen frame := frame.cost
  see frame stat := { frame with cost := stat }

/-- The calls of the methods. -/
inductive MetricsCall where
  | recordLatency (layer : String) (ms : ℚ)
  | recordTool (name : String) (ok : Bool)
  | recordRetrieval (value : ℚ)
  | recordLlm (provider model : String) (promptTokens completionTokens : ℕ)
  | snapshot
  | reset
  deriving DecidableEq

/-- `record_latency`. -/
def recordLatency (layer : String) (ms : ℚ) : List Statement :=
  latencyTable.assign layer
    [fun seen stat => { stat with count := seen.count + 1 },
      fun seen stat => { stat with totalMs := toDouble (seen.totalMs + ms) },
      fun seen stat => { stat with minMs := some (lesser seen.minMs ms) },
      fun seen stat => { stat with maxMs := greater seen.maxMs ms }]

/-- `record_tool`. -/
def recordTool (name : String) (ok : Bool) : List Statement :=
  toolTable.assign name
    ((fun seen stat => { stat with calls := seen.calls + 1 }) ::
      if ok then [fun seen stat => { stat with ok := seen.ok + 1 }] else [])

/-- `record_retrieval`. -/
def recordRetrieval (value : ℚ) : List Statement :=
  [fun registry frame => (registry, { frame with retrieval := registry.retrieval }),
    fun registry frame =>
      ({ registry with retrieval.count := frame.retrieval.count + 1 }, frame),
    fun registry frame => (registry, { frame with retrieval := registry.retrieval }),
    fun registry frame =>
      ({ registry with retrieval.total := toDouble (frame.retrieval.total + value) }, frame)]

/-- `record_llm`; the price is looked up before the lock is taken. -/
def recordLlm (model : String) (promptTokens completionTokens : ℕ) (usd : ℚ) : List Statement :=
  costTable.assign model
    [fun seen stat => { stat with calls := seen.calls + 1 },
      fun seen stat => { stat with promptTokens := seen.promptTokens + promptTokens },
      fun seen stat => { stat with completionTokens := seen.completionTokens + completionTokens },
      fun seen stat => { stat with usd := toDouble (seen.usd + usd) }]

def byName {α β : Type} (d : OrderedDict String α) (asDict : α → β) : List (String × β) :=
  d.sortedItems.map fun item => (item.1, asDict item.2)

/-- `snapshot`. -/
def snapshot : List Statement :=
  [fun registry frame =>
      (registry,
        { frame with totalCalls := OrderedDict.total ToolStat.calls registry.tools.entries }),
    fun registry frame =>
      (registry,
        { frame with totalOk := OrderedDict.total ToolStat.ok registry.tools.entries }),
    fun registry frame =>
      (registry,
        { frame with report.latencyByLayer := byName registry.latency LatencyStat.asDict }),
    fun registry frame =>
      (registry, { frame with report.toolsByName := byName registry.tools toolEntry }),
    fun registry frame =>
      (registry,
        { frame with report.overallSuccessRate := rate frame.totalOk frame.totalCalls }),
    fun registry frame =>
      (registry, { frame with report.observations := registry.retrieval.count }),
    fun registry frame =>
      (registry, { frame with report.avgRecall := roundTo 3 registry.retrieval.avg }),
    fun registry frame =>
      (registry, { frame with report.costByModel := byName registry.cost CostStat.asDict }),
    fun registry frame =>
      let usd := sumDoubles (registry.cost.values.map CostStat.usd)
      (registry, { frame with report.totalUsd := roundTo 6 usd })]

/-- `reset`. -/
def reset : List Statement :=
  [fun registry frame => ({ registry with latency := .empty }, frame),
    fun registry frame => ({ registry with tools := .empty }, frame),
    fun registry frame => ({ registry with cost := .empty }, frame),
    fun registry frame => ({ registry with retrieval := {} }, frame)]

/-- The registry with its lock; only `snapshot` returns something. -/
def metrics : Monitor MetricsRegistry Frame MetricsCall (Option Snapshot) where
  enter _ := {}
  body
    | .recordLatency layer ms => recordLatency layer ms
    | .recordTool name ok => recordTool name ok
    | .recordRetrieval value => recordRetrieval value
    | .recordLlm _ model promptTokens completionTokens =>
        recordLlm model promptTokens completionTokens (usdOf model promptTokens completionTokens)
    | .snapshot => snapshot
    | .reset => reset
  answer
    | .snapshot, frame => some frame.report
    | _, _ => none

/-! ## A method by itself -/

section

variable {α : Type} {table : Table α}

/-- Two dictionaries do not share their place, nor two locals. -/
structure Table.Lawful (table : Table α) : Prop where
  dict_withDict : ∀ registry dict, table.dict (table.withDict registry dict) = dict
  withDict_withDict : ∀ registry dict dict',
    table.withDict (table.withDict registry dict) dict' = table.withDict registry dict'
  seen_see : ∀ frame stat, table.seen (table.see frame stat) = stat

theorem latencyTable_lawful : latencyTable.Lawful :=
  ⟨fun _ _ => rfl, fun _ _ _ => rfl, fun _ _ => rfl⟩

theorem toolTable_lawful : toolTable.Lawful :=
  ⟨fun _ _ => rfl, fun _ _ _ => rfl, fun _ _ => rfl⟩

theorem costTable_lawful : costTable.Lawful :=
  ⟨fun _ _ => rfl, fun _ _ _ => rfl, fun _ _ => rfl⟩

namespace Table

def put (table : Table α) (registry : MetricsRegistry) (key : String) (stat : α) :
    MetricsRegistry :=
  table.withDict registry ((table.dict registry).set key stat)

theorem Lawful.current_put (h : table.Lawful) (registry : MetricsRegistry) (key : String)
    (stat : α) : table.current (table.put registry key stat) key = stat := by
  rw [current, put, h.dict_withDict, OrderedDict.get?_set, if_pos rfl]
  rfl

theorem Lawful.put_put (h : table.Lawful) (registry : MetricsRegistry) (key : String)
    (stat stat' : α) :
    table.put (table.put registry key stat) key stat' = table.put registry key stat' := by
  rw [put, put, h.dict_withDict, h.withDict_withDict, OrderedDict.set_set]
  rfl

/-- With nothing in between, each assignment reads what the one before has written. -/
theorem Lawful.runAll_writes (h : table.Lawful) (key : String) (writes : List (α → α → α))
    (registry : MetricsRegistry) (stat : α) (frame : Frame) :
    (Monitor.runAll (writes.flatMap fun write => [table.load key, table.store key write])
      (table.put registry key stat) frame).1 =
        table.put registry key (writes.foldl (fun stat write => write stat stat) stat) := by
  induction writes generalizing stat frame with
  | nil => rfl
  | cons write writes ih =>
      have hload : table.load key (table.put registry key stat) frame =
          (table.put registry key stat, table.see frame stat) := by
        rw [load, h.current_put]
      have hstore : table.store key write (table.put registry key stat) (table.see frame stat) =
          (table.put registry key (write stat stat), table.see frame stat) := by
        rw [store, ← put, h.seen_see, h.current_put, h.put_put]
      rw [List.foldl_cons, ← ih (write stat stat) (table.see frame stat), List.flatMap_cons,
        List.cons_append, List.cons_append, List.nil_append, Monitor.runAll, Monitor.runAll, hload,
        hstore]

theorem Lawful.runAll_assign (h : table.Lawful) (key : String) (writes : List (α → α → α))
    (registry : MetricsRegistry) (frame : Frame) :
    (Monitor.runAll (table.assign key writes) registry frame).1 =
      table.put registry key
        (writes.foldl (fun stat write => write stat stat) (table.current registry key)) := by
  rw [← h.runAll_writes key writes registry (table.current registry key) frame]
  show (Monitor.runAll _ (table.withDict registry ((table.dict registry).setdefault key _)) _).1 = _
  rw [OrderedDict.setdefault_eq]
  rfl

end Table

end

namespace MetricsRegistry

variable (self : MetricsRegistry)

/-- What a call that nothing comes between makes of the registry. -/
def apply : MetricsCall → MetricsRegistry
  | .recordLatency layer ms =>
      { self with
        latency := OrderedDict.observeAt LatencyStat.observe {} self.latency (layer, ms) }
  | .recordTool name ok =>
      { self with tools := OrderedDict.observeAt ToolStat.count {} self.tools (name, ok) }
  | .recordRetrieval value => { self with retrieval := self.retrieval.observe value }
  | .recordLlm _ model promptTokens completionTokens =>
      let usd := usdOf model promptTokens completionTokens
      { self with
        cost := OrderedDict.observeAt CostStat.charge {} self.cost
          (model, ⟨promptTokens, completionTokens, usd⟩) }
  | .snapshot => self
  | .reset => empty

/-- What a snapshot that nothing comes between reports. -/
def report : Snapshot where
  latencyByLayer := byName self.latency LatencyStat.asDict
  toolsByName := byName self.tools toolEntry
  overallSuccessRate :=
    rate (OrderedDict.total ToolStat.ok self.tools.entries)
      (OrderedDict.total ToolStat.calls self.tools.entries)
  observations := self.retrieval.count
  avgRecall := roundTo 3 self.retrieval.avg
  costByModel := byName self.cost CostStat.asDict
  totalUsd := roundTo 6 (sumDoubles (self.cost.values.map CostStat.usd))

/-- What the audited tools count is what `record_tool` counts. -/
theorem apply_recordTool (name : String) (ok : Bool) :
    self.apply (.recordTool name ok) = self.recordTool name ok := rfl

end MetricsRegistry

theorem call_data (registry : MetricsRegistry) (o : MetricsCall) :
    (metrics.call registry o).1 = registry.apply o := by
  cases o with
  | recordLatency layer ms =>
      show (Monitor.runAll (recordLatency layer ms) registry {}).1 = _
      rw [recordLatency, latencyTable_lawful.runAll_assign]
      rfl
  | recordTool name ok =>
      show (Monitor.runAll (recordTool name ok) registry {}).1 = _
      rw [recordTool, toolTable_lawful.runAll_assign]
      cases ok with
      | false => rfl
      | true => rfl
  | recordLlm provider model promptTokens completionTokens =>
      show (Monitor.runAll (recordLlm model _ _ _) registry {}).1 = _
      rw [recordLlm, costTable_lawful.runAll_assign]
      rfl
  | recordRetrieval | snapshot | reset => rfl

theorem call_snapshot (registry : MetricsRegistry) :
    (metrics.call registry .snapshot).2 = some registry.report := rfl

/-! ## What a snapshot should say

Stated of the calls alone: counts, and sums in the order of the calls. -/

/-- The calls after the last `reset`. -/
def sinceReset (calls : List MetricsCall) : List MetricsCall :=
  calls.foldl
    (fun kept o =>
      match o with
      | .reset => []
      | o => kept ++ [o])
    []

def latencies (calls : List MetricsCall) : List (String × ℚ) :=
  calls.filterMap fun
    | .recordLatency layer ms => some (layer, ms)
    | _ => none

def outcomes (calls : List MetricsCall) : List (String × Bool) :=
  calls.filterMap fun
    | .recordTool name ok => some (name, ok)
    | _ => none

def recalls (calls : List MetricsCall) : List ℚ :=
  calls.filterMap fun
    | .recordRetrieval value => some value
    | _ => none

def usages (calls : List MetricsCall) : List (String × Usage) :=
  calls.filterMap fun
    | .recordLlm _ model promptTokens completionTokens =>
        some (model,
          ⟨promptTokens, completionTokens, usdOf model promptTokens completionTokens⟩)
    | _ => none

/-- The names that occur, sorted. -/
def sortedNames {β : Type} (items : List (String × β)) : List String :=
  (OrderedDict.firstKeys (items.map Prod.fst)).insertionSort fun a b => a ≤ b

/-- The floats added up one by one. -/
def addUp (xs : List ℚ) : ℚ := xs.foldl (fun sum x => toDouble (sum + x)) 0

def sumOf {β : Type} (amount : β → ℕ) (xs : List β) : ℕ := xs.foldl (fun n x => n + amount x) 0

/-- How many of the executions were fine, and the rate. -/
def outcomeEntry (oks : List Bool) : ToolEntry where
  calls := oks.length
  ok := oks.countP id
  successRate := rate (oks.countP id) oks.length

def costEntry (own : List Usage) : CostStat where
  calls := own.length
  promptTokens := sumOf Usage.promptTokens own
  completionTokens := sumOf Usage.completionTokens own
  usd := roundTo 6 (addUp (own.map Usage.usd))

def Snapshot.of (calls : List MetricsCall) : Snapshot where
  latencyByLayer := (sortedNames (latencies calls)).map fun layer =>
    (layer, ((OrderedDict.own layer (latencies calls)).foldl LatencyStat.observe {}).asDict)
  toolsByName := (sortedNames (outcomes calls)).map fun name =>
    (name, outcomeEntry (OrderedDict.own name (outcomes calls)))
  overallSuccessRate := (outcomeEntry ((outcomes calls).map Prod.snd)).successRate
  observations := (recalls calls).length
  avgRecall := roundTo 3
    (if (recalls calls).length = 0 then 0
    else toDouble (addUp (recalls calls) / (recalls calls).length))
  costByModel := (sortedNames (usages calls)).map fun model =>
    (model, costEntry (OrderedDict.own model (usages calls)))
  totalUsd := roundTo 6
    (sumDoubles ((OrderedDict.firstKeys ((usages calls).map Prod.fst)).map fun model =>
      addUp ((OrderedDict.own model (usages calls)).map Usage.usd)))

/-! ## The registry is the record of the calls -/

/-- The registry after these calls, none of them a `reset`. -/
def registryOf (calls : List MetricsCall) : MetricsRegistry where
  latency := OrderedDict.tally LatencyStat.observe {} (latencies calls)
  tools := OrderedDict.tally ToolStat.count {} (outcomes calls)
  cost := OrderedDict.tally CostStat.charge {} (usages calls)
  retrieval := (recalls calls).foldl RetrievalAgg.observe {}

theorem registryOf_concat (calls : List MetricsCall) {o : MetricsCall} (ho : o ≠ .reset) :
    registryOf (calls ++ [o]) = (registryOf calls).apply o := by
  unfold registryOf latencies outcomes recalls usages
  simp only [List.filterMap_append]
  cases o with
  | recordLatency layer ms =>
      simp only [List.filterMap_cons, List.filterMap_nil, List.append_nil,
        OrderedDict.tally_concat]
      rfl
  | recordTool name ok =>
      simp only [List.filterMap_cons, List.filterMap_nil, List.append_nil,
        OrderedDict.tally_concat]
      rfl
  | recordRetrieval value =>
      simp only [List.filterMap_cons, List.filterMap_nil, List.append_nil, List.foldl_append]
      rfl
  | recordLlm provider model promptTokens completionTokens =>
      simp only [List.filterMap_cons, List.filterMap_nil, List.append_nil,
        OrderedDict.tally_concat]
      rfl
  | snapshot =>
      simp only [List.filterMap_cons, List.filterMap_nil, List.append_nil]
      rfl
  | reset => exact absurd rfl ho

theorem sinceReset_concat (calls : List MetricsCall) (o : MetricsCall) :
    sinceReset (calls ++ [o]) = if o = .reset then [] else sinceReset calls ++ [o] := by
  rw [sinceReset, List.foldl_append]
  cases o with
  | reset => rfl
  | recordLatency | recordTool | recordRetrieval | recordLlm | snapshot => rfl

/-- One call after the other, the registry is the record of those since the last reset. -/
theorem after_calls (calls : List MetricsCall) :
    metrics.after .empty calls = registryOf (sinceReset calls) := by
  induction calls using List.reverseRecOn with
  | nil => rfl
  | append_singleton calls o ih =>
      rw [Monitor.after_concat, ih, call_data, sinceReset_concat]
      by_cases ho : o = .reset
      · rw [if_pos ho, ho]
        rfl
      · rw [if_neg ho, registryOf_concat _ ho]

/-! ## What it reports -/

theorem foldl_count (oks : List Bool) (stat : ToolStat) :
    oks.foldl ToolStat.count stat =
      ⟨stat.calls + oks.length, stat.ok + oks.countP id⟩ := by
  induction oks generalizing stat with
  | nil => rfl
  | cons ok oks ih =>
      rw [List.foldl_cons, ih, ToolStat.count]
      cases ok with
      | false => simp [Nat.add_comm, Nat.add_left_comm]
      | true => simp [Nat.add_comm, Nat.add_left_comm]

theorem foldl_charge (own : List Usage) (stat : CostStat) :
    own.foldl CostStat.charge stat =
      ⟨stat.calls + own.length,
        own.foldl (fun n usage => n + usage.promptTokens) stat.promptTokens,
        own.foldl (fun n usage => n + usage.completionTokens) stat.completionTokens,
        (own.map Usage.usd).foldl (fun sum x => toDouble (sum + x)) stat.usd⟩ := by
  induction own generalizing stat with
  | nil => rfl
  | cons usage own ih =>
      rw [List.foldl_cons, ih, CostStat.charge]
      simp [Nat.add_comm, Nat.add_left_comm]

theorem foldl_observe (recalls : List ℚ) (agg : RetrievalAgg) :
    recalls.foldl RetrievalAgg.observe agg =
      ⟨agg.count + recalls.length,
        recalls.foldl (fun sum x => toDouble (sum + x)) agg.total⟩ := by
  induction recalls generalizing agg with
  | nil => rfl
  | cons value recalls ih =>
      rw [List.foldl_cons, ih, RetrievalAgg.observe]
      simp [Nat.add_comm, Nat.add_left_comm]

theorem byName_tally {α β γ : Type} (observe : α → β → α) (fresh : α) (asDict : α → γ)
    (items : List (String × β)) :
    byName (OrderedDict.tally observe fresh items) asDict =
      (sortedNames items).map fun name =>
        (name, asDict ((OrderedDict.own name items).foldl observe fresh)) := by
  rw [byName, OrderedDict.sortedItems_tally, List.map_map]
  rfl

theorem foldl_succ {β : Type} (xs : List β) (n : ℕ) :
    xs.foldl (fun n _ => n + 1) n = n + xs.length := by
  induction xs generalizing n with
  | nil => rfl
  | cons x xs ih =>
      rw [List.foldl_cons, ih, List.length_cons]
      omega

theorem foldl_oks {κ : Type} (items : List (κ × Bool)) (n : ℕ) :
    items.foldl (fun n item => n + if item.2 then 1 else 0) n =
      n + (items.map Prod.snd).countP id := by
  induction items generalizing n with
  | nil => rfl
  | cons item items ih =>
      obtain ⟨key, ok⟩ := item
      rw [List.foldl_cons, ih, List.map_cons, List.countP_cons]
      cases ok with
      | false => rfl
      | true =>
          simp only [if_true, id]
          omega

/-- The counters of all tools together. -/
theorem total_calls (items : List (String × Bool)) :
    OrderedDict.total ToolStat.calls
        (OrderedDict.tally ToolStat.count {} items).entries =
      (items.map Prod.snd).length := by
  have hobserve : ∀ (stat : ToolStat) (ok : Bool), (stat.count ok).calls = stat.calls + 1 :=
    fun _ _ => rfl
  rw [OrderedDict.total_tally _ _ hobserve rfl, foldl_succ, Nat.zero_add, List.length_map]

theorem total_ok (items : List (String × Bool)) :
    OrderedDict.total ToolStat.ok
        (OrderedDict.tally ToolStat.count {} items).entries =
      (items.map Prod.snd).countP id := by
  have hobserve : ∀ (stat : ToolStat) (ok : Bool),
      (stat.count ok).ok = stat.ok + if ok then 1 else 0 := by
    intro stat ok
    cases ok <;> rfl
  rw [OrderedDict.total_tally _ _ hobserve rfl, foldl_oks, Nat.zero_add]

theorem report_registryOf (calls : List MetricsCall) :
    (registryOf calls).report = Snapshot.of calls := by
  have htools : byName (registryOf calls).tools toolEntry = (Snapshot.of calls).toolsByName := by
    rw [registryOf, byName_tally]
    apply List.map_congr_left
    intro name _
    rw [foldl_count, toolEntry, outcomeEntry]
    simp
  have hcost : byName (registryOf calls).cost CostStat.asDict = (Snapshot.of calls).costByModel := by
    rw [registryOf, byName_tally]
    apply List.map_congr_left
    intro model _
    rw [foldl_charge, CostStat.asDict, costEntry]
    simp [sumOf, addUp]
  have husd : (registryOf calls).cost.values.map CostStat.usd =
      (OrderedDict.firstKeys ((usages calls).map Prod.fst)).map fun model =>
        addUp ((OrderedDict.own model (usages calls)).map Usage.usd) := by
    rw [registryOf, OrderedDict.values, OrderedDict.entries_tally, List.map_map, List.map_map]
    apply List.map_congr_left
    intro model _
    show (List.foldl CostStat.charge {} _).usd = _
    rw [foldl_charge]
    rfl
  have hretrieval : (registryOf calls).retrieval =
      ⟨(recalls calls).length, addUp (recalls calls)⟩ := by
    rw [registryOf, foldl_observe]
    simp [addUp]
  rw [MetricsRegistry.report, Snapshot.of, htools, hcost, husd, hretrieval]
  simp only [registryOf, byName_tally, total_calls, total_ok]
  rfl

/-! ## Any order of steps -/

/-- However the threads' steps interleave, every snapshot counts exactly the calls that
ended before it since the last reset, none of them in part; each thread's calls end in its
own order; and the threads can always go on until all calls have ended. -/
theorem snapshots_exact {todos : List (List MetricsCall)} {labels : List ℕ}
    {ended : Shared (Guarded MetricsRegistry) (Worker MetricsRegistry Frame MetricsCall)}
    {outs : List (ℕ × MetricsCall × Option Snapshot)}
    (hrun : metrics.workers.run (Monitor.start .empty todos) labels = some (ended, outs)) :
    (∀ before i report rest, outs = before ++ (i, .snapshot, some report) :: rest →
        report = Snapshot.of (sinceReset (Monitor.made before))) ∧
      (∀ i todo, todos[i]? = some todo → ∃ worker, ended.parties[i]? = some worker ∧
        todo = Monitor.madeBy i outs ++ worker.todo) ∧
      ((∀ worker ∈ ended.parties, worker.todo = []) ∨
        ∃ i next, metrics.workers.step ended i = some next) := by
  refine ⟨?_, Monitor.inOrder_run hrun, ?_⟩
  · intro before i report rest houts
    have hanswer := (Monitor.linear_run hrun).answer houts
    rw [call_snapshot, after_calls, report_registryOf] at hanswer
    exact Option.some.inj hanswer
  · rcases (Monitor.run_ends hrun).2 with ⟨hended, -⟩ | hnext
    · exact .inl hended
    · exact .inr hnext

/-- One thread records an execution and reads the registry, another records one between. -/
theorem snapshots_exact_threads :
    ∃ ended outs,
      metrics.workers.run
          (Monitor.start .empty
            [[.recordTool "web_search" true, .snapshot], [.recordTool "web_search" false]])
          (List.replicate 7 0 ++ List.replicate 5 1 ++ List.replicate 11 0) = some (ended, outs) ∧
        ∀ before i report rest, outs = before ++ (i, .snapshot, some report) :: rest →
          report = Snapshot.of (sinceReset (Monitor.made before)) := by
  obtain ⟨⟨ended, outs⟩, hrun⟩ : ∃ result, metrics.workers.run
      (Monitor.start .empty
        [[.recordTool "web_search" true, .snapshot], [.recordTool "web_search" false]])
      (List.replicate 7 0 ++ List.replicate 5 1 ++ List.replicate 11 0) = some result := ⟨_, rfl⟩
  exact ⟨ended, outs, hrun, (snapshots_exact hrun).1⟩

end Lour.Core
