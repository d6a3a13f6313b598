import Lour.Agents.Transcript
/-!
# What a forced stop reports

`finalize` looks at the last assistant message only, and takes the generic text when
that one is empty; `reflect` goes on looking for one with content.
-/

namespace Lour.Agents

open Lour.Core Lour.Lib Lour.Lib.Python

/-- What the assistant said, message by message. -/
def assistantContents (messages : List LLMMessage) : List String :=
  messages.filterMap fun
    | .assistant content _ => some content
    | _ => none

/-- The most recent thing that the assistant said. -/
def mostRecent (messages : List LLMMessage) : Option String :=
  ((assistantContents messages).filter fun content => content != "").getLast?

/-- The answer is the most recent content, or the generic text if there is none. -/
def Reports (said : List LLMMessage) (s : AgentState) : Prop :=
  s.finalAnswer = some ((mostRecent said).getD budgetStopAnswer)

/-- The run comes to `finalize` because the enforcer refused another step, and has no
answer yet. -/
structure ForcedStop (deps : Deps) {ν : Type} (G : AgentGraph ν) (finalNode : ν)
    (s : AgentState) (requests : List (Request Env Json)) (last : Request Env Json)
    (t : AgentState) (items : List StreamItem) : Prop where
  run : G.system.run (G.start s) (requests ++ [last]) = some (.ready finalNode t, items)
  refused : canContinue deps last.env t = false
  unset : t.finalAnswer.getD "" = ""

/-- The last assistant message has content, or none before it has any; or the most
recent content is the generic text anyway. -/
def SaidLast (said : List LLMMessage) : Prop :=
  (assistantContents said).getLast? ≠ some "" ∨
    mostRecent said = none ∨ mostRecent said = some budgetStopAnswer

/-! ## Looking for content -/

theorem lastAssistantContent_eq (messages : List LLMMessage) :
    lastAssistantContent messages = ((assistantContents messages).getLast?).getD "" := by
  have hpairs : lastAssistantMessage messages = (messages.filterMap fun
      | .assistant content toolCalls => some (content, toolCalls)
      | _ => none).getLast? := List.getLast?_filterMap.symm
  have hcontents : assistantContents messages = (messages.filterMap fun
      | .assistant content toolCalls => some (content, toolCalls)
      | _ => none).map Prod.fst := by
    rw [assistantContents, List.map_filterMap]
    congr 1
    funext message
    cases message <;> rfl
  rw [lastAssistantContent, hpairs, hcontents, List.getLast?_map]

@[simp] theorem assistantContents_append (xs ys : List LLMMessage) :
    assistantContents (xs ++ ys) = assistantContents xs ++ assistantContents ys := by
  simp [assistantContents]

/-- An exchange has something that the assistant said, if it is empty. -/
theorem assistantContents_ne_nil {exchanges : List Exchange} (h : exchanges ≠ []) :
    assistantContents (exchanges.flatMap Exchange.messages) ≠ [] := by
  cases exchanges with
  | nil => exact absurd rfl h
  | cons exchange rest =>
      rw [List.flatMap_cons, assistantContents_append, Exchange.messages]
      simp [assistantContents]

/-- The last content is the most recent one unless it is empty. -/
theorem mostRecent_of_last {said : List LLMMessage} {content : String}
    (h : (assistantContents said).getLast? = some content) (hne : content ≠ "") :
    mostRecent said = some content := by
  obtain ⟨before, hbefore⟩ := List.getLast?_eq_some_iff.mp h
  rw [mostRecent, hbefore, List.filter_append]
  simp [hne]

/-! ## The stop -/

section Stop

variable {deps : Deps} {ν : Type} {G : AgentGraph ν} {a f : ν} {w : ν → ℕ}

/-- A run that stops without an answer reports what was gathered exactly when the
last assistant message has it. -/
theorem AgentLoop.reports_iff (hloop : AgentLoop deps G a f w) (hspeaks : Speaks G a)
    {s t : AgentState} {requests : List (Request Env Json)} {last : Request Env Json}
    {items : List StreamItem} (h : ForcedStop deps G f s requests last t items) (env : Env) :
    ∃ t' out, G.step (.ready f t) (.exec env) = some (.ended t', out) ∧
      (Reports (produced messagesOf items) t' ↔ SaidLast (produced messagesOf items)) := by
  obtain ⟨system, user, exchanges, htalked⟩ := hloop.run_talked hspeaks (by simp) h.run
  have hspoken := htalked.spoken f rfl hloop.final_ne_act
  have hne : assistantContents (produced messagesOf items) ≠ [] := by
    rw [htalked.held.said, assistantContents_append]
    exact List.append_ne_nil_of_right_ne_nil _ (assistantContents_ne_nil hspoken)
  have hmessages := hloop.run_channel messages_channel h.run
  rw [Config.state_ready] at hmessages
  obtain ⟨content, hlast⟩ : ∃ content,
      (assistantContents (produced messagesOf items)).getLast? = some content :=
    Option.ne_none_iff_exists'.mp (mt List.getLast?_eq_none_iff.mp hne)
  have hcontent : lastAssistantContent t.messages = content := by
    rw [lastAssistantContent_eq, hmessages, assistantContents_append,
      List.getLast?_append_of_ne_nil _ hne, hlast]
    rfl
  let answer := if content = "" then budgetStopAnswer else content
  have hfinal : (G.node f env none t).outcome =
      .update { finalAnswer := some (some answer) } := by
    rw [hloop.node_final, finalize, if_neg (not_not.mpr h.unset), hcontent]
    rfl
  have hstep : G.step (.ready f t) (.exec env) =
      some (G.land f env t (G.node f env none t).outcome,
        (G.node f env none t).items (G.name f)) := rfl
  refine ⟨t.fold { finalAnswer := some (some answer) }, (G.node f env none t).items (G.name f),
    ?_, ?_⟩
  · rw [hstep, hfinal, StateGraph.land, StateGraph.complete, hloop.next_final, hloop.fold_eq]
  · rw [Reports, AgentState.fold_finalAnswer, Option.getD_some, Option.some.injEq, SaidLast, hlast]
    by_cases hempty : content = ""
    · have hanswer : answer = budgetStopAnswer := if_pos hempty
      rw [hanswer, hempty]
      cases mostRecent (produced messagesOf items) with
      | none => simp
      | some recent => simp [eq_comm]
    · have hanswer : answer = content := if_neg hempty
      rw [hanswer, mostRecent_of_last hlast hempty]
      exact iff_of_true rfl (.inl (by simpa using hempty))

end Stop

/-- A forced stop of the researcher or the coder reports what was gathered exactly
when the last assistant message has content, or none of the run has. -/
theorem forced_stop_reports_iff (deps : Deps) (s t : AgentState)
    (requests : List (Request Env Json)) (last : Request Env Json) (items : List StreamItem)
    (env : Env) :
    (ForcedStop deps (researcher deps) .finalize s requests last t items →
      ∃ t' out, (researcher deps).step (.ready .finalize t) (.exec env) = some (.ended t', out) ∧
        (Reports (produced messagesOf items) t' ↔ SaidLast (produced messagesOf items))) ∧
    (ForcedStop deps (coder deps) .finalize s requests last t items →
      ∃ t' out, (coder deps).step (.ready .finalize t) (.exec env) = some (.ended t', out) ∧
        (Reports (produced messagesOf items) t' ↔ SaidLast (produced messagesOf items))) :=
  ⟨fun h => (researcher_loop deps).reports_iff (researcher_speaks deps) h env,
    fun h => (coder_loop deps).reports_iff (coder_speaks deps) h env⟩

/-- The model says something with its first call, and `content` with its second. -/
def twoCalls (content : String) : List (Request Env Json) × Request Env Json :=
  ([.exec (stubEnv { content := "" }),
    .exec (stubEnv { content := "It is 42.", toolCalls := [⟨"code_exec", .obj []⟩] })],
    .exec (stubEnv { content := content, toolCalls := [⟨"code_exec", .obj []⟩] }))

def twoIterations : AgentState := stubState "q" { budget := { maxIterations := some 2 } }

/-- The model says something with its only call, and the reflection wants more. -/
def oneCall : List (Request Env Json) × Request Env Json :=
  ((twoCalls "").1, .exec (stubEnv { content := "" } .researcher { isComplete := false }))

def oneIteration : AgentState := stubState "q" { budget := { maxIterations := some 1 } }

theorem twoCalls_forcedStop (content : String) :
    ∃ t items, ForcedStop stubDeps (coder stubDeps) .finalize twoIterations (twoCalls content).1
      (twoCalls content).2 t items ∧
        assistantContents (produced messagesOf items) = ["It is 42.", content] :=
  ⟨_, _, ⟨rfl, rfl, rfl⟩, rfl⟩

theorem oneCall_forcedStop :
    ∃ t items, ForcedStop stubDeps (researcher stubDeps) .finalize oneIteration oneCall.1
      oneCall.2 t items ∧ assistantContents (produced messagesOf items) = ["It is 42."] :=
  ⟨_, _, ⟨rfl, rfl, rfl⟩, rfl⟩

theorem forced_stop_reports_iff_done :
    (∃ t, ∃ items : List StreamItem, ∃ t' out,
      assistantContents (produced messagesOf items) = ["It is 42."] ∧
      (researcher stubDeps).step (.ready .finalize t) oneCall.2 = some (.ended t', out) ∧
        (Reports (produced messagesOf items) t' ↔ SaidLast (produced messagesOf items))) ∧
    ∃ t, ∃ items : List StreamItem, ∃ t' out,
      assistantContents (produced messagesOf items) = ["It is 42.", "Done."] ∧
      (coder stubDeps).step (.ready .finalize t) (twoCalls "Done.").2 = some (.ended t', out) ∧
        (Reports (produced messagesOf items) t' ↔ SaidLast (produced messagesOf items)) := by
  constructor
  · obtain ⟨t, items, hstop, hsaid⟩ := oneCall_forcedStop
    obtain ⟨t', out, hstep, hreports⟩ :=
      (forced_stop_reports_iff stubDeps _ t _ _ items _).1 hstop
    exact ⟨t, items, t', out, hsaid, hstep, hreports⟩
  · obtain ⟨t, items, hstop, hsaid⟩ := twoCalls_forcedStop "Done."
    obtain ⟨t', out, hstep, hreports⟩ :=
      (forced_stop_reports_iff stubDeps _ t _ _ items _).2 hstop
    exact ⟨t, items, t', out, hsaid, hstep, hreports⟩

/-- The answer of the first turn is not what the run reports. -/
theorem gathered_answer_lost :
    ¬ ∀ (deps : Deps) (s t : AgentState) requests last items env t' out,
      ForcedStop deps (coder deps) .finalize s requests last t items →
        (coder deps).step (.ready .finalize t) (.exec env) = some (.ended t', out) →
          Reports (produced messagesOf items) t' := by
  intro h
  have hreports := h stubDeps twoIterations _ (twoCalls "").1 (twoCalls "").2 _
    (stubEnv { content := "" }) _ _ ⟨rfl, rfl, rfl⟩ rfl
  have hanswer : some budgetStopAnswer = some "It is 42." := hreports
  exact absurd hanswer (by decide)

end Lour.Agents
