import Lour.Agents.Answers
import Lour.Tools.CodeExec
/-!
# What the coder sees of its runs

`code_exec` packs the output of every run, but of a failed result only the error
reaches the transcript.
-/

namespace Lour.Agents

open Lour.Core Lour.Lib Lour.Lib.Python Lour.Tools

/-- The content is a JSON object with the run's stdout, stderr and exit code before
anything else, cut at the cap. -/
def ShowsOutput (result : SandboxResult) (content : String) : Prop :=
  ∃ more : Dict, content = slice maxToolContent (Json.obj (result.output ++ more)).dumps

/-- A written object begins with its first key. -/
theorem dumps_obj_head {key : String} {c : Char} {cs : List Char}
    (hkey : key.toList.flatMap Json.escapeChar = c :: cs) (x : Json) (entries : Dict) :
    ∃ rest, (Json.obj ((key, x) :: entries)).dumps.toList = '\x7b' :: '"' :: c :: rest := by
  cases entries with
  | nil =>
      refine ⟨cs ++ '"' :: ':' :: ' ' :: (x.dumps.toList ++ ['\x7d']), ?_⟩
      simp [Json.dumps, Json.dumpsWith, Json.dumpsEntries, Json.dumpsStr, hkey]
  | cons e entries =>
      refine ⟨cs ++ '"' :: ':' :: ' ' :: (x.dumps.toList ++ (", " ++ ", ".intercalate
        (Json.dumpsEntries Json.escapeChar (e :: entries))).toList ++ ['\x7d']), ?_⟩
      simp [Json.dumps, Json.dumpsWith, Json.dumpsEntries, Json.dumpsStr, String.toList_intercalate,
        hkey]

theorem slice_head {a b c : Char} {cs : List Char} {s : String} (h : s.toList = a :: b :: c :: cs) :
    ∃ rest, (slice maxToolContent s).toList = a :: b :: c :: rest := by
  refine ⟨cs.take 7997, ?_⟩
  rw [slice, String.toList_ofList, h]
  rfl

/-- The error of a failed run shows nothing of its output. -/
theorem showsOutput_iff (result : SandboxResult) :
    ShowsOutput result (serializeResult (codeExecResult result)) ↔ result.ok = true := by
  constructor
  · rintro ⟨more, hcontent⟩
    by_contra hnot
    have hfailed : result.ok = false := Bool.eq_false_of_not_eq_true hnot
    have herror : serializeResult (codeExecResult result) =
        slice maxToolContent
          (Json.obj [("error", .str ("code_exec " ++ result.reason))]).dumps := by
      rw [codeExecResult, hfailed]
      rfl
    obtain ⟨text, htext⟩ := @dumps_obj_head "error" 'e' _ rfl
      (.str ("code_exec " ++ result.reason)) []
    obtain ⟨text', htext'⟩ := @dumps_obj_head "stdout" 's' _ rfl (.str result.stdout)
      (("stderr", .str result.stderr) :: ("exit_code", result.exitCodeJson) :: more)
    -- the two texts differ in their third character
    obtain ⟨rest, hrest⟩ := slice_head htext
    obtain ⟨rest', hrest'⟩ := slice_head htext'
    have heq : '\x7b' :: '"' :: 'e' :: rest = '\x7b' :: '"' :: 's' :: rest' := by
      rw [← hrest, ← hrest', ← herror, hcontent]
      rfl
    injection heq with _ heq
    injection heq with _ heq
    injection heq with hthird _
    exact absurd hthird (by decide)
  · intro hok
    refine ⟨[("timed_out", .bool result.timedOut)], ?_⟩
    rw [serializeResult, codeExecResult, hok]
    rfl

section

variable {deps : Deps} {env : Env} {answer : Option Json} {state : AgentState}

theorem ruling_runs {policy : Policy} {approved : Bool} {name : String} {tool found : BaseTool}
    (h : ruling deps policy approved name = .runs tool)
    (hfound : deps.toolRegistry.get? name = some found) : tool = found := by
  unfold ruling at h
  rw [hfound] at h
  dsimp only at h
  split at h
  next => cases h
  next =>
      split at h
      next => cases h
      next =>
          injection h with h
          exact h.symm

theorem forall₂_getElem? {α β : Type} {R : α → β → Prop} {xs : List α} {ys : List β}
    (h : List.Forall₂ R xs ys) {i : ℕ} {x : α} (hx : xs[i]? = some x) :
    ∃ y, ys[i]? = some y ∧ R x y := by
  induction h generalizing i with
  | nil => cases hx
  | cons hxy _ ih =>
      cases i with
      | zero =>
          cases hx
          exact ⟨_, rfl, hxy⟩
      | succ i => exact ih hx

/-- The call that ran has its result for its message, at its place after the
assistant message. -/
theorem act_ran_message {position : ℕ} {name : String} {args : Dict} {tool : BaseTool}
    (hran : ⟨position, name, args⟩ ∈ ranCalls (act deps env answer state).out)
    (htool : deps.toolRegistry.get? name = some tool) :
    ∃ u assistant messages, (act deps env answer state).outcome = .update u ∧
      u.messages = some (assistant :: messages) ∧
      messages[position]? =
        some (toolMessage name (serializeResult (env.run position tool args))) := by
  rw [act_ranCalls] at hran
  split at hran
  next approved hpass =>
      obtain ⟨tc, htc, hentry⟩ := List.mem_map.mp hran
      obtain ⟨hmem, hmay⟩ := List.mem_filter.mp htc
      have hcall : (requested deps env state)[tc.2]? = some tc.1 :=
        List.mk_mem_zipIdx_iff_getElem?.mp hmem
      have hindex : (requested deps env state).zipIdx[tc.2]? = some tc := by
        rw [List.getElem?_zipIdx, hcall, Option.map_some, Nat.zero_add]
      injection hentry with hposition hname hargs
      have hne : requested deps env state ≠ [] := by
        intro hnil
        rw [hnil] at hcall
        cases hcall
      obtain ⟨found, hruling⟩ := ruling_runs_iff.mpr hmay
      have hfound : found = tool := ruling_runs hruling (by rw [hname, htool])
      have hmessages := @pass2_messages deps state.policy env approved (requested deps env state)
      obtain ⟨message, hmessage, hanswered⟩ := forall₂_getElem? hmessages hindex
      refine ⟨callsUpdate state (responded deps env state)
        (pass2 deps state.policy env approved (requested deps env state)), _, _, ?_, rfl, ?_⟩
      · rw [act_outcome, if_neg hne, hpass]
      · rw [← hposition, hmessage]
        unfold AnsweredBy actCall at hanswered
        dsimp only at hanswered
        rw [hruling] at hanswered
        injection hanswered with hmessage _
        rw [← hmessage, hfound, ← hname, ← hargs]
  next => exact absurd hran List.not_mem_nil

end

/-- The tool message of a `code_exec` call that ran holds the run's stdout, stderr
and exit code exactly when the run succeeded. -/
theorem code_output_shown_iff (deps : Deps) (env : Env) (answer : Option Json)
    (state : AgentState) (tool : BaseTool) (position : ℕ) (args : Dict) (result : SandboxResult)
    (htool : deps.toolRegistry.get? "code_exec" = some tool)
    (hran : ⟨position, "code_exec", args⟩ ∈ ranCalls (act deps env answer state).out)
    (hresult : env.run position tool args = codeExecResult result) :
    ∃ u assistant messages content, (act deps env answer state).outcome = .update u ∧
      u.messages = some (assistant :: messages) ∧
      messages[position]? = some (toolMessage "code_exec" content) ∧
      (ShowsOutput result content ↔ result.ok = true) := by
  obtain ⟨u, assistant, messages, hu, hmessages, hmessage⟩ := act_ran_message hran htool
  refine ⟨u, assistant, messages, _, hu, hmessages, hmessage, ?_⟩
  rw [hresult]
  exact showsOutput_iff result

/-- A snippet that prints and then fails. -/
def failedRun : SandboxResult where
  ok := false
  stdout := "step 1 done\n"
  stderr := "NameError: name 'x' is not defined"
  exitCode := some 1

def codeEnv : Env :=
  { stubEnv { content := "", toolCalls := [⟨"code_exec", .obj [("code", .str "print(x)")]⟩] } with
    run := fun _ _ _ => codeExecResult failedRun }

theorem code_output_shown_iff_failed :
    ∃ u assistant messages content,
      (act stubDeps codeEnv none (stubState "q" {})).outcome = .update u ∧
      u.messages = some (assistant :: messages) ∧
      messages[0]? = some (toolMessage "code_exec" content) ∧
      (ShowsOutput failedRun content ↔ failedRun.ok = true) :=
  code_output_shown_iff stubDeps codeEnv none (stubState "q" {}) codeExec 0
    [("code", .str "print(x)")] failedRun rfl
    (by
      rw [act_ranCalls]
      exact List.mem_cons_self) rfl

/-- The coder is told the exit code, and neither what was printed nor why it failed. -/
theorem failed_output_not_shown :
    ∃ u assistant content, (act stubDeps codeEnv none (stubState "q" {})).outcome = .update u ∧
      u.messages = some [assistant, toolMessage "code_exec" content] ∧
      content = "\x7b\"error\": \"code_exec exited with code 1\"\x7d" ∧
      ¬ ShowsOutput failedRun content := by
  have hcontent : serializeResult (codeExecResult failedRun) =
      "\x7b\"error\": \"code_exec exited with code 1\"\x7d" := by rfl
  refine ⟨_, _, _, rfl, rfl, hcontent, fun hshows => ?_⟩
  exact absurd ((showsOutput_iff failedRun).mp hshows) (by decide)

end Lour.Agents
