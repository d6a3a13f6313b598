import Lour.Agents.Act
import Lour.Tools.Rendering
/-!
# What every requested call gets

Pass 2 answers each call of the response with one tool message and one record, in
order.  Before the model is asked the schemas of the offered tools are rendered,
and pass 1 makes a pending approval of every call a human has to see: these are the
two places where an execution of `act` can raise.
-/

namespace Lour.Agents

open Lour.Core Lour.Lib Lour.Lib.Python Lour.Tools

/-! ## One message and one record for each call -/

section Answers

variable {deps : Deps} {policy : Policy} {env : Env} {approved : Bool}

/-- The message pass 2 appends for the call, whatever went before. -/
def AnsweredBy (deps : Deps) (policy : Policy) (env : Env) (approved : Bool)
    (tc : ToolCall × ℕ) (message : LLMMessage) : Prop :=
  (actCall deps policy env approved {} tc).messages = [message]

def RecordedBy (deps : Deps) (policy : Policy) (env : Env) (approved : Bool)
    (tc : ToolCall × ℕ) (record : ToolCallRecord) : Prop :=
  (actCall deps policy env approved {} tc).records = [record]

theorem actCall_messages (acc : Pass2) (tc : ToolCall × ℕ) :
    ∃ message, AnsweredBy deps policy env approved tc message ∧
      (actCall deps policy env approved acc tc).messages = acc.messages ++ [message] := by
  unfold AnsweredBy actCall
  dsimp only
  split <;> exact ⟨_, rfl, rfl⟩

theorem actCall_records (acc : Pass2) (tc : ToolCall × ℕ) :
    ∃ record, RecordedBy deps policy env approved tc record ∧
      (actCall deps policy env approved acc tc).records = acc.records ++ [record] := by
  unfold RecordedBy actCall
  dsimp only
  split <;> exact ⟨_, rfl, rfl⟩

/-- A loop that appends one entry to a list for each element it goes over. -/
theorem foldl_entries {α β γ : Type} {f : γ → α → γ} {g : γ → List β} {R : α → β → Prop}
    (hstep : ∀ acc a, ∃ b, R a b ∧ g (f acc a) = g acc ++ [b]) (xs : List α) (acc : γ) :
    ∃ bs, List.Forall₂ R xs bs ∧ g (xs.foldl f acc) = g acc ++ bs := by
  induction xs generalizing acc with
  | nil => exact ⟨[], .nil, (List.append_nil _).symm⟩
  | cons a xs ih =>
      obtain ⟨b, hb, hfirst⟩ := hstep acc a
      obtain ⟨bs, hbs, hrest⟩ := ih (f acc a)
      refine ⟨b :: bs, .cons hb hbs, ?_⟩
      rw [List.foldl_cons, hrest, hfirst, List.append_assoc, List.singleton_append]

theorem pass2_messages (calls : List ToolCall) :
    List.Forall₂ (AnsweredBy deps policy env approved) calls.zipIdx
      (pass2 deps policy env approved calls).messages := by
  obtain ⟨messages, hmessages, heq⟩ := foldl_entries
    (@actCall_messages deps policy env approved) calls.zipIdx {}
  have hall : (pass2 deps policy env approved calls).messages = messages := heq
  rw [hall]
  exact hmessages

theorem pass2_records (calls : List ToolCall) :
    List.Forall₂ (RecordedBy deps policy env approved) calls.zipIdx
      (pass2 deps policy env approved calls).records := by
  obtain ⟨records, hrecords, heq⟩ := foldl_entries
    (@actCall_records deps policy env approved) calls.zipIdx {}
  have hall : (pass2 deps policy env approved calls).records = records := heq
  rw [hall]
  exact hrecords

/-- A tool message that names the call's tool. -/
def Replies (tc : ToolCall) (message : LLMMessage) : Prop :=
  ∃ content, message = toolMessage tc.name content

/-- A record of the call. -/
def Records (tc : ToolCall) (record : ToolCallRecord) : Prop :=
  record.name = tc.name ∧ record.arguments = tc.arguments.asDict

theorem AnsweredBy.replies {tc : ToolCall × ℕ} {message : LLMMessage}
    (h : AnsweredBy deps policy env approved tc message) : Replies tc.1 message := by
  unfold AnsweredBy actCall at h
  dsimp only at h
  split at h <;> exact ⟨_, (List.cons.inj h).1.symm⟩

theorem RecordedBy.records {tc : ToolCall × ℕ} {record : ToolCallRecord}
    (h : RecordedBy deps policy env approved tc record) : Records tc.1 record := by
  unfold RecordedBy actCall at h
  dsimp only at h
  split at h <;> rw [← (List.cons.inj h).1] <;> exact ⟨rfl, rfl⟩

theorem forall₂_zipIdx {α β : Type} {R : α → β → Prop} {S : α × ℕ → β → Prop} {xs : List α}
    {ys : List β} (h : List.Forall₂ S xs.zipIdx ys) (hS : ∀ x y, S x y → R x.1 y) :
    List.Forall₂ R xs ys := by
  have hmap : List.Forall₂ (fun x y => R x.1 y) xs.zipIdx ys := h.imp hS
  rw [← List.forall₂_map_left_iff, List.zipIdx_map_fst] at hmap
  exact hmap

theorem pass2_replies (calls : List ToolCall) :
    List.Forall₂ Replies calls (pass2 deps policy env approved calls).messages :=
  forall₂_zipIdx (pass2_messages calls) fun _ _ => AnsweredBy.replies

theorem pass2_recorded (calls : List ToolCall) :
    List.Forall₂ Records calls (pass2 deps policy env approved calls).records :=
  forall₂_zipIdx (pass2_records calls) fun _ _ => RecordedBy.records

end Answers

/-! ## What one execution returns -/

section Node

variable {deps : Deps} {env : Env} {answer : Option Json} {state : AgentState}

/-- What the model answers in this execution. -/
def responded (deps : Deps) (env : Env) (state : AgentState) : LLMResponse :=
  env.chat (actRequest deps state)

def responseTokens (response : LLMResponse) : Int :=
  response.promptTokens + response.completionTokens

/-- The update of a response without calls. -/
def answerUpdate (state : AgentState) (response : LLMResponse) : Update where
  messages := some [assistantMessage response.content response.toolCalls]
  finalAnswer :=
    some (if response.content = "" then state.finalAnswer else some response.content)
  budget := some (state.budget.withDelta (responseTokens response) 0 1)

/-- The update of a response whose calls were gone through. -/
def callsUpdate (state : AgentState) (response : LLMResponse) (acc : Pass2) : Update where
  messages := some (assistantMessage response.content response.toolCalls :: acc.messages)
  toolsCalled := some acc.records
  budget := some (state.budget.withDelta (responseTokens response) acc.toolCallsRun 1)

theorem act_outcome :
    (act deps env answer state).outcome =
      if requested deps env state = [] then
        .update (answerUpdate state (responded deps env state))
      else
        match pass1 deps state.policy answer (requested deps env state) with
        | .raised e => .error e
        | .pause pending => .interrupt pending
        | .proceed approved =>
            .update (callsUpdate state (responded deps env state)
              (pass2 deps state.policy env approved (requested deps env state))) := by
  unfold act requested responded
  dsimp only
  split
  next hempty =>
      rw [if_pos (List.isEmpty_iff.mp hempty)]
      rfl
  next hne =>
      rw [if_neg fun hnil => hne (List.isEmpty_iff.mpr hnil)]
      cases pass1 deps state.policy answer (env.chat (actRequest deps state)).toolCalls <;> rfl

/-- `act` returns where no tool was asked for, or where pass 1 lets the calls through. -/
theorem act_update_cases {u : Update} (h : (act deps env answer state).outcome = .update u) :
    requested deps env state = [] ∧ u = answerUpdate state (responded deps env state) ∨
      ∃ approved, pass1 deps state.policy answer (requested deps env state) = .proceed approved ∧
        u = callsUpdate state (responded deps env state)
          (pass2 deps state.policy env approved (requested deps env state)) := by
  rw [act_outcome] at h
  split at h
  next hnil =>
      cases h
      exact .inl ⟨hnil, rfl⟩
  next =>
      right
      cases hpass : pass1 deps state.policy answer (requested deps env state) with
      | raised e =>
          rw [hpass] at h
          cases h
      | pause pending =>
          rw [hpass] at h
          cases h
      | proceed approved =>
          rw [hpass] at h
          cases h
          exact ⟨approved, rfl, rfl⟩

end Node

end Lour.Agents
