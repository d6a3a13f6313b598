import Lour.Core.Counters
import Lour.Tools.Registry
/-!
# The tool decorators

`@audited` counts an execution after it has returned; `@retried`, under it, repeats
one that raises; `BaseTool.run`, over it, turns what is still raised into a failed
result.
-/

namespace Lour.Tools

open Lour.Lib Lour.Lib.Python
open Lour.Core (MetricsRegistry ToolStat)

/-! ## Executions -/

inductive ExceptionKind where
  | toolError
  | exception
  /-- A `BaseException` such as a cancellation. -/
  | base
  deriving DecidableEq

structure Raised where
  kind : ExceptionKind
  className : String
  message : String

/-- What the attempts of one execution come to, one after the other. -/
abbrev Attempts := ℕ → Except Raised ToolResult

structure Retry where
  attempts : ℕ := 3
  /-- An instance of one of the exceptions to retry on. -/
  retryable : Raised → Bool

/-- A tool whose `execute` is audited, and retried where there is a `retry`. -/
structure AuditedTool extends BaseTool where
  retry : Option Retry := none
  /-- `args_schema.model_validate`, with the text of a validation error. -/
  validate : Dict → Except String Dict

/-- The attempts from `k` on, with `left` more after that one; the last exception is
raised again. -/
def Retry.callFrom (self : Retry) (outcome : Attempts) : ℕ → ℕ → Except Raised ToolResult
  | 0, k => outcome k
  | left + 1, k =>
      match outcome k with
      | .ok result => .ok result
      | .error exc =>
          if self.retryable exc then self.callFrom outcome left (k + 1) else .error exc

/-- `@retried`. -/
def Retry.call (self : Retry) (outcome : Attempts) : Except Raised ToolResult :=
  self.callFrom outcome (self.attempts - 1) 0

namespace AuditedTool

variable (self : AuditedTool)

def retried (outcome : Attempts) : Except Raised ToolResult :=
  match self.retry with
  | none => outcome 0
  | some retry => retry.call outcome

/-- `@audited`: what is raised passes the count by. -/
def audited (outcome : Attempts) (metrics : MetricsRegistry) :
    Except Raised ToolResult × MetricsRegistry :=
  match self.retried outcome with
  | .error exc => (.error exc, metrics)
  | .ok result => (.ok result, metrics.recordTool self.name result.ok)

/-- The `except` clauses of `run`. -/
def caught : Except Raised ToolResult → Except Raised ToolResult
  | .ok result => .ok result
  | .error ⟨.toolError, _, message⟩ =>
      .ok (.failure message [("error_type", .str "tool_error")])
  | .error ⟨.exception, _, message⟩ =>
      .ok (.failure s!"Tool {pyRepr self.name} failed: {message}"
        [("error_type", .str "unhandled")])
  | .error exc => .error exc

/-- `run(raw_args)`, for an execution with these attempts. -/
def run (rawArgs : Option Dict) (outcome : Attempts) (metrics : MetricsRegistry) :
    Except Raised ToolResult × MetricsRegistry :=
  match self.validate (rawArgs.getD []) with
  | .error exc =>
      (.ok (.failure s!"Invalid arguments for tool {pyRepr self.name}: {exc}"
        [("error_type", .str "validation")]), metrics)
  | .ok _ =>
      let (result, metrics) := self.audited outcome metrics
      (self.caught result, metrics)

end AuditedTool

/-! ## What an execution comes to -/

/-- Some attempt returns this, and every one before it raises what is retried. -/
def Retry.ReturnsAt (self : Retry) (outcome : Attempts) (first last : ℕ) (result : ToolResult) :
    Prop :=
  ∃ k, first ≤ k ∧ k ≤ last ∧ outcome k = .ok result ∧
    ∀ j, first ≤ j → j < k → ∃ exc, outcome j = .error exc ∧ self.retryable exc = true

theorem Retry.callFrom_eq_ok_iff (self : Retry) (outcome : Attempts) (result : ToolResult)
    (left k : ℕ) :
    self.callFrom outcome left k = .ok result ↔
      self.ReturnsAt outcome k (k + left) result := by
  induction left generalizing k with
  | zero =>
      constructor
      · intro h
        exact ⟨k, le_rfl, le_rfl, h, fun j hj hlt => absurd hlt (Nat.not_lt.mpr hj)⟩
      · rintro ⟨i, hfirst, hlast, hi, -⟩
        have heq : i = k := le_antisymm hlast hfirst
        rwa [heq] at hi
  | succ left ih =>
      rw [Retry.callFrom]
      cases hk : outcome k with
      | ok first =>
          constructor
          · intro h
            refine ⟨k, le_rfl, Nat.le_add_right _ _, hk.trans h, ?_⟩
            exact fun j hj hlt => absurd hlt (Nat.not_lt.mpr hj)
          · rintro ⟨i, hfirst, -, hi, hbefore⟩
            rcases Nat.eq_or_lt_of_le hfirst with heq | hlt
            · rw [← hi, ← heq, hk]
            · obtain ⟨exc, hexc, -⟩ := hbefore k le_rfl hlt
              rw [hk] at hexc
              cases hexc
      | error exc =>
          by_cases hretry : self.retryable exc = true
          · simp only [if_pos hretry]
            rw [ih]
            have hbound : k + 1 + left = k + (left + 1) := by omega
            rw [hbound]
            constructor
            · rintro ⟨i, hfirst, hlast, hi, hbefore⟩
              refine ⟨i, by omega, hlast, hi, ?_⟩
              intro j hj hlt
              rcases Nat.eq_or_lt_of_le hj with heq | hgt
              · exact ⟨exc, heq ▸ hk, hretry⟩
              · exact hbefore j hgt hlt
            · rintro ⟨i, hfirst, hlast, hi, hbefore⟩
              have hne : k ≠ i := by
                intro heq
                rw [← heq, hk] at hi
                cases hi
              exact ⟨i, by omega, hlast, hi, fun j hj => hbefore j (by omega)⟩
          · simp only [if_neg hretry]
            refine iff_of_false (fun h => by cases h) ?_
            rintro ⟨i, hfirst, -, hi, hbefore⟩
            rcases Nat.eq_or_lt_of_le hfirst with heq | hlt
            · rw [← heq, hk] at hi
              cases hi
            · obtain ⟨other, hother, hretryable⟩ := hbefore k le_rfl hlt
              rw [hk] at hother
              cases hother
              exact hretry hretryable

/-- The execution returns: at once, or after some attempts that are retried. -/
def AuditedTool.Returns (self : AuditedTool) (outcome : Attempts) : Prop :=
  match self.retry with
  | none => ∃ result, outcome 0 = .ok result
  | some retry => ∃ result, retry.ReturnsAt outcome 0 (retry.attempts - 1) result

theorem AuditedTool.returns_iff (self : AuditedTool) (outcome : Attempts) :
    self.Returns outcome ↔ ∃ result, self.retried outcome = .ok result := by
  rw [Returns, retried]
  cases self.retry with
  | none => exact Iff.rfl
  | some retry =>
      apply exists_congr
      intro result
      show _ ↔ retry.callFrom outcome (retry.attempts - 1) 0 = .ok result
      rw [Retry.callFrom_eq_ok_iff, Nat.zero_add]

/-! ## Sequences of runs -/

structure ToolRun where
  tool : AuditedTool
  rawArgs : Option Dict
  outcome : Attempts

namespace ToolRun

def Valid (self : ToolRun) : Prop := ∃ args, self.tool.validate (self.rawArgs.getD []) = .ok args

def result (self : ToolRun) : Except Raised ToolResult :=
  self.tool.caught (self.tool.retried self.outcome)

end ToolRun

/-- The runs one after the other: under which name each was, what it returned, and the
counters at the end. -/
def runAll : List ToolRun → MetricsRegistry →
    List (String × Except Raised ToolResult) × MetricsRegistry
  | [], metrics => ([], metrics)
  | r :: rest, metrics =>
      let (result, metrics) := r.tool.run r.rawArgs r.outcome metrics
      let (history, metrics) := runAll rest metrics
      ((r.tool.name, result) :: history, metrics)

def returnedOk : Except Raised ToolResult → Bool
  | .ok result => result.ok
  | .error _ => false

def isReturned : Except Raised ToolResult → Bool
  | .ok _ => true
  | .error _ => false

theorem isReturned_iff {result : Except Raised ToolResult} :
    isReturned result = true ↔ ∃ returned, result = .ok returned := by
  cases result with
  | error exc => simp [isReturned]
  | ok returned => simp [isReturned]

/-- The counters of a tool say how often it was run, and how often it returned a result
that is ok. -/
def CountsRuns (name : String) (history : List (String × Except Raised ToolResult))
    (metrics : MetricsRegistry) : Prop :=
  (metrics.stat name).calls = history.countP (fun entry => entry.1 = name) ∧
  (metrics.stat name).ok =
    history.countP fun entry => entry.1 = name ∧ returnedOk entry.2 = true

/-- Nothing that is raised becomes a result that is ok. -/
theorem returnedOk_caught (tool : AuditedTool) (result : Except Raised ToolResult) :
    returnedOk (tool.caught result) = returnedOk result := by
  cases result with
  | ok result => rfl
  | error exc =>
      obtain ⟨kind, className, message⟩ := exc
      cases kind with
      | toolError => rfl
      | exception => rfl
      | base => rfl

/-- What one run does to the counters. -/
theorem run_eq {r : ToolRun} (h : r.Valid) (metrics : MetricsRegistry) :
    r.tool.run r.rawArgs r.outcome metrics =
      (r.result, match r.tool.retried r.outcome with
        | .error _ => metrics
        | .ok result => metrics.recordTool r.tool.name result.ok) := by
  obtain ⟨args, hargs⟩ := h
  rw [AuditedTool.run, hargs, ToolRun.result]
  simp only [AuditedTool.audited]
  cases r.tool.retried r.outcome with
  | error exc => rfl
  | ok result => rfl

/-- How many runs of a tool came to an execution that returned. -/
def returnedRuns (name : String) (runs : List ToolRun) : ℕ :=
  runs.countP fun r => r.tool.name = name ∧ isReturned (r.tool.retried r.outcome) = true

theorem runAll_stat {runs : List ToolRun} (hvalid : ∀ r ∈ runs, r.Valid)
    (metrics : MetricsRegistry) (name : String) :
    ((runAll runs metrics).2.stat name).calls =
        (metrics.stat name).calls + returnedRuns name runs ∧
      ((runAll runs metrics).2.stat name).ok =
        (metrics.stat name).ok + (runAll runs metrics).1.countP
          (fun entry => entry.1 = name ∧ returnedOk entry.2 = true) := by
  induction runs generalizing metrics with
  | nil => exact ⟨rfl, rfl⟩
  | cons r rest ih =>
      obtain ⟨hr, hrest⟩ := List.forall_mem_cons.mp hvalid
      simp only [runAll, returnedRuns, run_eq hr]
      have hih := ih hrest
      simp only [returnedRuns] at hih
      rw [List.countP_cons, List.countP_cons]
      simp only [ToolRun.result, returnedOk_caught]
      cases hretried : r.tool.retried r.outcome with
      | error exc =>
          obtain ⟨hcalls, hok⟩ := hih metrics
          rw [hcalls, hok]
          simp [isReturned, returnedOk]
      | ok result =>
          obtain ⟨hcalls, hok⟩ := hih (metrics.recordTool r.tool.name result.ok)
          rw [hcalls, hok]
          simp only [MetricsRegistry.stat_recordTool]
          by_cases hname : r.tool.name = name
          · have hsymm : name = r.tool.name := hname.symm
            simp only [hname, isReturned, returnedOk, ToolStat.count]
            cases result.ok with
            | true => simp; omega
            | false => simp; omega
          · have hsymm : ¬ name = r.tool.name := fun h => hname h.symm
            simp [if_neg hsymm, hname]

theorem countP_name (runs : List ToolRun) (metrics : MetricsRegistry) (name : String) :
    (runAll runs metrics).1.countP (fun entry => entry.1 = name) =
      runs.countP fun r => r.tool.name = name := by
  induction runs generalizing metrics with
  | nil => rfl
  | cons r rest ih => rw [runAll, List.countP_cons, List.countP_cons, ih]

theorem returnedRuns_eq_iff (name : String) (runs : List ToolRun) :
    returnedRuns name runs = runs.countP (fun r => r.tool.name = name) ↔
      ∀ r ∈ runs, r.tool.name = name → r.tool.Returns r.outcome := by
  have hreturned : returnedRuns name runs =
      (runs.filter fun r => r.tool.name = name).countP
        fun r => isReturned (r.tool.retried r.outcome) := by
    rw [List.countP_filter, returnedRuns]
    apply List.countP_congr
    intro r _
    simp [and_comm]
  rw [hreturned, List.countP_eq_length_filter (l := runs), List.countP_eq_length]
  simp only [List.mem_filter, decide_eq_true_eq, and_imp, isReturned_iff,
    ← AuditedTool.returns_iff]

/-- The counters of a tool are right exactly where none of its executions raises. -/
theorem counters_exact (runs : List ToolRun) (hvalid : ∀ r ∈ runs, r.Valid) (name : String) :
    CountsRuns name (runAll runs .empty).1 (runAll runs .empty).2 ↔
      ∀ r ∈ runs, r.tool.name = name → r.tool.Returns r.outcome := by
  obtain ⟨hcalls, hok⟩ := runAll_stat hvalid .empty name
  rw [MetricsRegistry.stat_empty, Nat.zero_add] at hcalls hok
  rw [CountsRuns, hcalls, countP_name, ← returnedRuns_eq_iff]
  exact and_iff_left hok

/-- A web search whose service is down, retried once. -/
def downSearch : ToolRun where
  tool :=
    { name := "web_search"
      description := "Search the web."
      retry := some { attempts := 2, retryable := fun exc => exc.className == "ExternalServiceError" }
      validate := .ok }
  rawArgs := some [("query", .str "lour")]
  outcome _ := .error ⟨.exception, "ExternalServiceError", "unavailable"⟩

/-- The same tool, where the second attempt gets through. -/
def slowSearch : ToolRun where
  tool := downSearch.tool
  rawArgs := downSearch.rawArgs
  outcome
    | 0 => .error ⟨.exception, "ExternalServiceError", "unavailable"⟩
    | _ => .ok (.success (.str "a page"))

theorem counters_exact_slow :
    CountsRuns "web_search" (runAll [slowSearch, slowSearch] .empty).1
      (runAll [slowSearch, slowSearch] .empty).2 := by
  have hvalid : ∀ r ∈ [slowSearch, slowSearch], r.Valid := by
    intro r hr
    refine ⟨[("query", .str "lour")], ?_⟩
    rcases List.mem_cons.mp hr with heq | hr
    · rw [heq]
      rfl
    · rw [List.mem_singleton.mp hr]
      rfl
  have hreturns : slowSearch.tool.Returns slowSearch.outcome := by
    refine ⟨.success (.str "a page"), 1, Nat.zero_le 1, le_rfl, rfl, ?_⟩
    intro j _ hlt
    have hzero : j = 0 := by omega
    rw [hzero]
    exact ⟨_, rfl, by decide⟩
  apply (counters_exact [slowSearch, slowSearch] hvalid "web_search").mpr
  intro r hr _
  rcases List.mem_cons.mp hr with heq | hr
  · rwa [heq]
  · rwa [List.mem_singleton.mp hr]

/-- A failed search is not counted: the tool looks as if it had never been run. -/
theorem counters_miss :
    ¬ ∀ (runs : List ToolRun) (name : String), (∀ r ∈ runs, r.Valid) →
      CountsRuns name (runAll runs .empty).1 (runAll runs .empty).2 := by
  intro hall
  have hvalid : ∀ r ∈ [downSearch], r.Valid := by
    intro r hr
    rw [List.mem_singleton.mp hr]
    exact ⟨[("query", .str "lour")], rfl⟩
  have hcalls := (hall [downSearch] "web_search" hvalid).1
  exact absurd hcalls (by decide)

end Lour.Tools
