import Lour.Gateway.Sessions
import Lour.Lib.Checkpoint
/-!
# Concurrent approvals of one thread

`approve` checks the snapshot and then resumes the graph, which loads the
checkpoint again; the tool calls of the resumed `act` run long before the next
checkpoint is written.  Requests that load the same checkpoint run them again.
-/

namespace Lour.Gateway

open Lour.Agents Lour.Lib Lour.Lib.Python

/-- A request begins with the node that the checkpoint has next, and takes the nodes after
it until the graph pauses, raises or ends; its decision answers an interrupt on the way. -/
def approvals (deps : Deps) : Resumable SupervisorConfig Bool Env RanCall where
  admits C := !(snapshot deps C).next.isEmpty
  begin command C env :=
    (tick deps C.restart command env).map fun (C', decision, items) =>
      (C', decision, ranCalls (emissions items))
  commits C := !C.raised
  goesOn C := !(snapshot deps C).next.isEmpty && C.pending.isNone
  position := RanCall.position

theorem act_ranCalls_positions (deps : Deps) (env : Env) (answer : Option Json)
    (state : AgentState) :
    ((ranCalls (act deps env answer state).out).map RanCall.position).Nodup := by
  rw [act_ranCalls]
  split
  next approved hpass =>
      have hsublist : ((runnable deps state.policy approved
          (requested deps env state)).map Prod.snd).Sublist
          ((requested deps env state).zipIdx.map Prod.snd) :=
        List.filter_sublist.map _
      have hpositions : ((runnable deps state.policy approved
          (requested deps env state)).map ranEntry).map RanCall.position =
          (runnable deps state.policy approved (requested deps env state)).map Prod.snd := by
        rw [List.map_map]
        rfl
      rw [hpositions]
      apply hsublist.nodup
      rw [List.zipIdx_map_snd]
      exact List.nodup_range'
  next => exact List.nodup_nil

theorem approvals_sound (deps : Deps) : (approvals deps).Sound where
  positions command C env C' command' tasks h := by
    simp only [approvals, Option.map_eq_some_iff, Prod.exists, Prod.mk.injEq] at h
    obtain ⟨C'', decision, items, htick, -, -, rfl⟩ := h
    obtain ⟨f, answer, hf, hout, -⟩ := tick_leaf htick
    rw [hout]
    rcases leaf_cases hf with rfl | hquiet
    · exact act_ranCalls_positions deps _ _ _
    · rw [(hquiet _ _ _).1]
      exact List.nodup_nil
  raised command C env C' command' tasks h hraised := by
    simp only [approvals, Option.map_eq_some_iff, Prod.exists, Prod.mk.injEq] at h
    obtain ⟨C'', decision, items, htick, rfl, -, rfl⟩ := h
    obtain ⟨f, answer, hf, hout, hlanded⟩ := tick_leaf htick
    obtain ⟨e, he⟩ := hlanded.of_raised (by simpa [approvals] using hraised)
    rw [hout]
    rcases leaf_cases hf with rfl | hquiet
    · exact act_ranCalls_of_not_update (by simp [he])
    · exact (hquiet _ _ _).1

/-- Over any interleaving of any number of approvals of a thread, whatever it is paused on and
whichever of them are cut off: where no request loads a checkpoint that another one works from,
or has abandoned with a call run, every tool call of every turn runs at most once. -/
theorem approvals_run_once (deps : Deps) (paused : SupervisorConfig)
    (steps : List (ℕ × Resumable.Action Bool Env))
    (hexclusive : (approvals deps).system.AllSteps Resumable.Exclusive
      (Resumable.initial paused) steps) :
    (approvals deps).system.AllStates (approvals deps).AtMostOnce
      (Resumable.initial paused) steps :=
  Resumable.atMostOnce_of_exclusive (approvals_sound deps) paused hexclusive

/-- The coder waits for the approval of one call. -/
def pausedCoder : SupervisorConfig :=
  .within .coder (stubState "q" askFirst)
    (.paused .act (stubState "q" askFirst) [{ tool := "code_exec" }])

def oneCall : Env :=
  stubEnv { content := "", toolCalls := [{ name := "code_exec", arguments := .obj [] }] }

/-- The first request is cut off while the model answers, the second one runs the call and
pauses again, and the third one approves that pause. -/
theorem approvals_run_once_three :
    (approvals stubDeps).system.AllStates (approvals stubDeps).AtMostOnce
      (Resumable.initial pausedCoder)
      [(0, .check true), (0, .load), (0, .begin oneCall), (0, .abort),
        (1, .check true), (1, .load), (1, .begin oneCall), (1, .execute), (1, .commit),
        (1, .begin oneCall), (1, .commit),
        (2, .check true), (2, .load), (2, .begin oneCall), (2, .execute), (2, .commit)] := by
  apply approvals_run_once stubDeps pausedCoder
  refine .cons rfl trivial <| .cons rfl ?_ <| .cons rfl trivial <| .cons rfl trivial <|
    .cons rfl trivial <| .cons rfl ?_ <| .cons rfl trivial <| .cons rfl trivial <|
    .cons rfl trivial <| .cons rfl trivial <| .cons rfl trivial <|
    .cons rfl trivial <| .cons rfl ?_ <| .cons rfl trivial <| .cons rfl trivial <|
    .cons rfl trivial trivial
  -- nobody works from the checkpoint that a request loads
  · intro j
    match j with
    | 0 => exact fun h => by cases h
    | n + 1 => exact fun h => by cases h
  · intro j
    match j with
    | 0 | 1 => exact fun h => by cases h
    | n + 2 => exact fun h => by cases h
  · intro j
    match j with
    | 0 | 1 | 2 => exact fun h => by cases h
    | n + 3 => exact fun h => by cases h

/-- Two requests are admitted and load the checkpoint before either commits: the
approved call runs twice. -/
theorem approvals_run_twice :
    ¬ ∀ (deps : Deps) (paused : SupervisorConfig) (steps : List (ℕ × Resumable.Action Bool Env)),
      paused.pending.isSome = true →
        (approvals deps).system.AllStates (approvals deps).AtMostOnce
          (Resumable.initial paused) steps := by
  intro h
  have hstates := h stubDeps pausedCoder
    [(0, .check true), (1, .check true), (0, .load), (1, .load), (0, .begin oneCall),
      (1, .begin oneCall), (0, .execute), (1, .execute)] rfl
  have hlast : ([(0, 0), (0, 0)] : List (ℕ × ℕ)).Nodup := hstates.last rfl
  exact absurd hlast (by decide)

end Lour.Gateway
