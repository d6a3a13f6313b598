import Lour.Agents.Enforcement
import Lour.Gateway.Streaming
import Lour.Lib.JsonOrder
import Mathlib.Logic.Function.Basic
/-!
# Sessions and approvals

The two views of a pause, the APPROVAL_REQUIRED frame and the session detail,
show one call each: the first one pending.  The approval resumes the node, which
asks the model again and runs every flagged call of the new response.  Where the
thread is not paused, the approval answers the next interrupt, which nobody sees.
-/

namespace Lour.Gateway

open Lour.Agents Lour.Lib Lour.Lib.Python

/-- The parts of `graph.aget_state(config)` the routes read; each task carries the
interrupts it waits on. -/
structure Snapshot where
  next : List String
  finalAnswer : Option String
  tasks : List (List (List PendingApproval))

/-- The checkpoint of the supervisor holds the state its current node was entered
with. -/
def snapshot (deps : Deps) : SupervisorConfig → Snapshot
  | .top (.ended s) => { next := [], finalAnswer := s.finalAnswer, tasks := [] }
  | .top (.ready n s) | .top (.failed n s _) =>
      { next := [(supervisor deps).name n], finalAnswer := s.finalAnswer, tasks := [[]] }
  | .top (.paused n s pending) =>
      { next := [(supervisor deps).name n], finalAnswer := s.finalAnswer, tasks := [[pending]] }
  | .within n s c =>
      { next := [(supervisor deps).name n], finalAnswer := s.finalAnswer,
        tasks := [c.pending.toList] }

/-- `_pending_approval`: the first approval of the first task that waits on one. -/
def pendingApproval (snap : Snapshot) : Option PendingApproval :=
  snap.tasks.findSome? fun interrupts => interrupts.head?.bind List.head?

inductive SessionStatus where
  | running
  | awaitingApproval
  | done
  deriving DecidableEq

structure SessionDetail where
  status : SessionStatus
  finalAnswer : Option String
  pendingApproval : Option PendingApproval
  nextNodes : List String

/-- `GET /v1/sessions/{thread_id}` of a thread that exists. -/
def getSession (snap : Snapshot) : SessionDetail :=
  let pending := pendingApproval snap
  { status :=
      if pending.isSome then .awaitingApproval
      else if snap.next.isEmpty then .done
      else .running
    finalAnswer := snap.finalAnswer
    pendingApproval := pending
    nextNodes := snap.next }

/-- `Command(resume={"approved": ...})`. -/
def resumeValue (approved : Bool) : Json := .obj [("approved", .bool approved)]

/-- A run takes its next node.  `interrupt` returns the decision of the request where there is
one left, and takes it; one that was not taken is there until the node of the supervisor is
done. -/
def tick (deps : Deps) (C : SupervisorConfig) (decision : Option Bool) (env : Env) :
    Option (SupervisorConfig × Option Bool × List StreamItem) :=
  ((supervisor deps).step C (.exec env)).bind fun (C', items) =>
    match C'.pending, decision with
    | some _, some approved =>
        -- the execution goes on from the interrupt, which has returned
        ((supervisor deps).step C' (.resume (resumeValue approved) env)).map fun (C', items) =>
          (C', none, items)
    | _, _ => some (C', if C.inSameNode C' then decision else none, items)

/-- A run of the graph: where it stands, the decision of its request while no interrupt has
taken it, and the checkpoint that the request found. -/
structure ThreadRun where
  config : SupervisorConfig
  decision : Option Bool := none
  found : Option SupervisorConfig := none

/-- What `aget_state` finds, and the runs that the requests on the thread have begun.  A run
whose client is gone takes no more nodes. -/
structure Session where
  checkpoint : SupervisorConfig
  runs : ℕ → Option ThreadRun

/-- The first run, from the seed. -/
def Session.start (deps : Deps) (s : AgentState) : Session where
  checkpoint := (supervisor deps).start s
  runs := Function.update (fun _ => none) 0 (some { config := (supervisor deps).start s })

/-- What drives a thread: a run takes its next node, or
`POST /v1/sessions/{thread_id}/approve` begins one.  `latest` says whether what the node has
written is what is found next: it may not be where runs overtake each other or a write fails. -/
inductive SessionCall where
  | advance (run : ℕ) (env : Env) (latest : Bool)
  | approve (run : ℕ) (approved : Bool)

/-- `approve` answers 404 where no node is next, and else begins a run from the checkpoint,
paused or not. -/
def sessionStep (deps : Deps) (s : Session) : SessionCall → Option (Session × List StreamItem)
  | .advance i env latest =>
      (s.runs i).bind fun run =>
        (tick deps run.config run.decision env).map fun (C, decision, items) =>
          ({ checkpoint := if latest then C else s.checkpoint
             runs := Function.update s.runs i (some { run with config := C, decision }) }, items)
  | .approve i approved =>
      if (snapshot deps s.checkpoint).next.isEmpty then some (s, [])
      else if (s.runs i).isSome then none
      else
        let run := { config := s.checkpoint.restart, decision := approved, found := s.checkpoint }
        some ({ s with runs := Function.update s.runs i (some run) }, [])

def sessionSystem (deps : Deps) : System Session SessionCall StreamItem :=
  ⟨sessionStep deps⟩

/-- The same arguments: the order of the keys does not count. -/
def SameArguments (arguments arguments' : Dict) : Prop :=
  Json.Same (.obj arguments) (.obj arguments')

/-- The human saw the call for the pause `C` is: in the frame built from the interrupt, or in
the session detail. -/
def Presented (deps : Deps) (C : SupervisorConfig) (name : String) (arguments : Dict) : Prop :=
  ∃ pending, C.pending = some pending ∧
    ((∃ shown reason, interruptEvent [pending] = .approvalRequired name shown reason ∧
        SameArguments shown arguments) ∨
      ∃ p, (getSession (snapshot deps C)).pendingApproval = some p ∧
        p.tool = name ∧ SameArguments p.arguments arguments)

/-- Every flagged call a step runs was presented for the pause that was approved. -/
def Covered (deps : Deps) (s : Session) : SessionCall → Prop
  | .approve _ _ => True
  | .advance i env _ =>
      ∀ run C decision items, s.runs i = some run →
        tick deps run.config run.decision env = some (C, decision, items) →
        ∀ ran ∈ ranCalls (emissions items),
          (deps.toolGate.check ran.name run.config.state.policy).requiresApproval = true →
            run.decision = some true ∧
              ∃ found, run.found = some found ∧ Presented deps found ran.name ran.arguments

/-- The first call that the pause `C` waits on is the given one. -/
def FirstPending (C : SupervisorConfig) (name : String) (arguments : Dict) : Prop :=
  ∃ first rest, C.pending = some (first :: rest) ∧ first.tool = name ∧
    SameArguments first.arguments arguments

/-- Where a request's approval is still to be taken, of the response that `act` gets every call
that needs approval is the first one that was pending when the request came; a flagged call
whose arguments are no dict makes the node raise instead. -/
def Consistent (deps : Deps) (s : Session) : SessionCall → Prop
  | .approve _ _ => True
  | .advance i env _ =>
      ∀ run, s.runs i = some run → run.decision = some true → AtAct deps run.config →
        let flagged := needsApproval deps run.config.state.policy
          (requested deps env run.config.state)
        (∀ tc ∈ flagged, tc.arguments.isDict = true) →
          ∀ tc ∈ flagged, ∃ found, run.found = some found ∧
            FirstPending found tc.name tc.arguments.asDict

section

variable {deps : Deps} {C C' : SupervisorConfig}

theorem isApproved_resumeValue (approved : Bool) :
    isApproved (resumeValue approved) = approved := by
  cases approved <;> rfl

theorem pendingApproval_snapshot {pending : List PendingApproval} (h : C.pending = some pending) :
    pendingApproval (snapshot deps C) = pending.head? := by
  cases C with
  | top c =>
      cases c with
      | paused n s p =>
          cases h
          cases pending <;> rfl
      | ready n s => cases h
      | failed n s e => cases h
      | ended s => cases h
  | within n s c =>
      have hc : c.pending = some pending := h
      simp only [snapshot, pendingApproval, hc]
      cases pending <;> rfl

/-- A pause is at the `act` node and waits on at least one approval. -/
def PausedAtAct (deps : Deps) (C : SupervisorConfig) : Prop :=
  ∀ pending, C.pending = some pending → AtAct deps C ∧ pending ≠ []

/-- Both views show the first pending approval, and only that. -/
theorem presented_first {name : String} {arguments : Dict} {first : PendingApproval}
    {rest : List PendingApproval} (h : C.pending = some (first :: rest)) :
    Presented deps C name arguments ↔
      first.tool = name ∧ SameArguments first.arguments arguments := by
  constructor
  · rintro ⟨pending, hpending, hshown⟩
    rw [h] at hpending
    cases hpending
    rcases hshown with ⟨shown, reason, hframe, hsame⟩ | ⟨p, hp, hname, hsame⟩
    · obtain ⟨hname, rfl⟩ := AgentEvent.approvalRequired_inj hframe
      exact ⟨hname, hsame⟩
    · have hfirst : (getSession (snapshot deps C)).pendingApproval = some first :=
        pendingApproval_snapshot h
      rw [hfirst] at hp
      cases hp
      exact ⟨hname, hsame⟩
  · rintro ⟨rfl, hsame⟩
    exact ⟨_, h, .inl ⟨first.arguments, first.reason, rfl, hsame⟩⟩

theorem presented_iff {name : String} {arguments : Dict} (hC : PausedAtAct deps C) :
    Presented deps C name arguments ↔ FirstPending C name arguments := by
  constructor
  · intro hshown
    obtain ⟨pending, hpending, -⟩ := id hshown
    obtain ⟨first, rest, rfl⟩ := List.exists_cons_of_ne_nil (hC pending hpending).2
    exact ⟨first, rest, hpending, (presented_first hpending).mp hshown⟩
  · rintro ⟨first, rest, hpending, hfirst⟩
    exact (presented_first hpending).mpr hfirst

theorem pausedAtAct_step {r : Request Env Json} {items : List StreamItem}
    (h : (supervisor deps).step C r = some (C', items)) : PausedAtAct deps C' := by
  intro pending hp
  have hact := atAct_of_pending h hp
  refine ⟨hact, ?_⟩
  obtain ⟨f, -, -, -, hlanded⟩ := (supervisor deps).step_leaf h
  obtain ⟨hinterrupt, hleaf, -⟩ := hlanded.of_pending hp
  rw [hact] at hleaf
  cases hleaf
  obtain ⟨hne, -, -, rfl⟩ := pass1_eq_pause (act_interrupt hinterrupt)
  simpa [pendingApprovals] using hne

/-- Either no interrupt takes the decision, or one has returned it. -/
theorem tick_cases {decision left : Option Bool} {env : Env} {items : List StreamItem}
    (h : tick deps C decision env = some (C', left, items)) :
    (∃ P asked approved, (supervisor deps).step C (.exec env) = some (P, asked) ∧
      P.pending.isSome = true ∧ decision = some approved ∧
      (supervisor deps).step P (.resume (resumeValue approved) env) = some (C', items)) ∨
    (supervisor deps).step C (.exec env) = some (C', items) ∧
      (decision = none ∨ C'.pending = none) := by
  simp only [tick, Option.bind_eq_some_iff, Prod.exists] at h
  obtain ⟨P, asked, hstep, h⟩ := h
  split at h
  next payload approved hpending =>
      simp only [Option.map_eq_some_iff, Prod.exists, Prod.mk.injEq] at h
      obtain ⟨C'', items', hresume, rfl, -, rfl⟩ := h
      exact .inl ⟨P, asked, approved, hstep, by rw [hpending]; rfl, rfl, hresume⟩
  next hnot =>
      simp only [Option.some.injEq, Prod.mk.injEq] at h
      obtain ⟨rfl, -, rfl⟩ := h
      refine .inr ⟨hstep, ?_⟩
      by_contra hneither
      obtain ⟨hdecision, hpending⟩ := not_or.mp hneither
      obtain ⟨approved, happroved⟩ := Option.ne_none_iff_exists'.mp hdecision
      obtain ⟨payload, hpayload⟩ := Option.ne_none_iff_exists'.mp hpending
      exact hnot payload approved hpayload happroved

/-- The interrupt that returns is at the node the run stands at, in the same state. -/
theorem asked_at {env : Env} {asked : List StreamItem}
    (h : (supervisor deps).step C (.exec env) = some (C', asked))
    (hpending : C'.pending.isSome = true) :
    AtAct deps C ∧ AtAct deps C' ∧ C'.state = C.state ∧
      ∃ pending, (act deps env none C.state).outcome = .interrupt pending := by
  obtain ⟨pending, hpending⟩ := Option.isSome_iff_exists.mp hpending
  have hact := atAct_of_pending h hpending
  obtain ⟨f, hf, -, -, hlanded⟩ := (supervisor deps).step_leaf h
  obtain ⟨hinterrupt, hleaf, hstate⟩ := hlanded.of_pending hpending
  rw [hact] at hleaf
  cases hleaf
  exact ⟨hf, hact, hstate, pending, hinterrupt⟩

/-- A tick executes the node the run stands at. -/
theorem tick_leaf {decision left : Option Bool} {env : Env} {items : List StreamItem}
    (h : tick deps C decision env = some (C', left, items)) :
    ∃ f answer, (supervisor deps).leaf C = some f ∧
      emissions items = (f env answer C.state).out ∧
      (supervisor deps).Landed f C.state C' (f env answer C.state).outcome := by
  rcases tick_cases h with ⟨P, asked, approved, hstep, hpending, -, hresume⟩ | ⟨hstep, -⟩
  · obtain ⟨hC, hP, hstate, -⟩ := asked_at hstep hpending
    obtain ⟨f, hf, -, hout, hlanded⟩ := (supervisor deps).step_leaf hresume
    rw [hP] at hf
    cases hf
    rw [hstate] at hout hlanded
    exact ⟨act deps, _, hC, hout, hlanded⟩
  · obtain ⟨f, hf, -, hout, hlanded⟩ := (supervisor deps).step_leaf hstep
    exact ⟨f, none, hf, hout, hlanded⟩

theorem tick_pausedAtAct {decision left : Option Bool} {env : Env} {items : List StreamItem}
    (h : tick deps C decision env = some (C', left, items)) : PausedAtAct deps C' := by
  rcases tick_cases h with ⟨P, asked, approved, -, -, -, hresume⟩ | ⟨hstep, -⟩
  · exact pausedAtAct_step hresume
  · exact pausedAtAct_step hstep

/-- What the calls a step runs come from: only a step that hands an approval to
`act` runs flagged calls, and it runs the flagged calls of its response. -/
theorem flagged_ran_iff {r : Request Env Json} {items : List StreamItem}
    (h : (supervisor deps).step C r = some (C', items)) (hact : AtAct deps C)
    (hanswer : r.answer = some (resumeValue true)) (name : String) (arguments : Dict) :
    (∃ ran ∈ ranCalls (emissions items), ran.name = name ∧ ran.arguments = arguments ∧
      (deps.toolGate.check ran.name C.state.policy).requiresApproval = true) ↔
      (∀ tc ∈ needsApproval deps C.state.policy (requested deps r.env C.state),
        tc.arguments.isDict = true) ∧
      ∃ tc ∈ needsApproval deps C.state.policy (requested deps r.env C.state),
        tc.name = name ∧ tc.arguments.asDict = arguments := by
  obtain ⟨f, hf, -, hout, -⟩ := (supervisor deps).step_leaf h
  rw [hact] at hf
  cases hf
  rw [hout, hanswer]
  constructor
  · rintro ⟨ran, hran, rfl, rfl, hreq⟩
    obtain ⟨approved, hpass, -, tc, htc, hname, hargs⟩ := mem_act_ranCalls hran
    have hflagged : tc ∈ needsApproval deps C.state.policy (requested deps r.env C.state) :=
      mem_needsApproval.mpr ⟨htc, hname ▸ hreq⟩
    rcases pass1_eq_proceed hpass with ⟨hnone, -⟩ | ⟨-, hdict, -⟩
    · rw [hnone] at hflagged
      cases hflagged
    · exact ⟨hdict, tc, hflagged, hname, hargs⟩
  · rintro ⟨hdict, tc, htc, rfl, rfl⟩
    obtain ⟨hmem, hreq⟩ := mem_needsApproval.mp htc
    have hpass : pass1 deps C.state.policy (some (resumeValue true))
        (requested deps r.env C.state) = .proceed true := by
      have hne := List.ne_nil_of_mem htc
      rw [pass1_answered hne hdict, isApproved_resumeValue]
    have hallowed := Tools.ToolGate.allowed_of_requiresApproval hreq
    obtain ⟨i, hi⟩ := List.getElem?_of_mem hmem
    refine ⟨ranEntry (tc, i), ?_, rfl, rfl, hreq⟩
    rw [act_ranCalls, hpass]
    refine List.mem_map_of_mem (List.mem_filter.mpr ⟨List.mem_zipIdx_iff_getElem?.mpr hi, ?_⟩)
    simp [mayRun, hallowed]

/-- Without a decision nothing flagged runs. -/
theorem not_flagged_of_unanswered {env : Env} {items : List StreamItem} {ran : RanCall}
    (h : (supervisor deps).step C (.exec env) = some (C', items))
    (hran : ran ∈ ranCalls (emissions items)) :
    (deps.toolGate.check ran.name C.state.policy).requiresApproval = false := by
  obtain ⟨f, hf, -, hout, -⟩ := (supervisor deps).step_leaf h
  rw [hout] at hran
  rcases leaf_cases hf with rfl | hquiet
  · by_contra hreq
    obtain ⟨decision, hdecision, -⟩ := approved_of_ran_flagged hran (by simpa using hreq)
    cases hdecision
  · rw [(hquiet _ _ _).1] at hran
    cases hran

/-- Where `act` does not ask, no call of the response is flagged, or one is malformed. -/
theorem none_flagged_of_returned {env : Env} {items : List StreamItem} (hact : AtAct deps C)
    (h : (supervisor deps).step C (.exec env) = some (C', items)) (hpending : C'.pending = none)
    (hdict : ∀ tc ∈ needsApproval deps C.state.policy (requested deps env C.state),
      tc.arguments.isDict = true) :
    needsApproval deps C.state.policy (requested deps env C.state) = [] := by
  by_contra hne
  obtain ⟨f, hf, -, -, hlanded⟩ := (supervisor deps).step_leaf h
  rw [hact] at hf
  cases hf
  have hpauses : (act deps env none C.state).outcome = _ := act_pauses (pass1_unanswered hne hdict)
  simp only [Request.answer_exec, Request.env] at hlanded
  rw [hpauses] at hlanded
  rw [hlanded.1] at hpending
  cases hpending

/-- Each checkpoint that was found, or is found next, is paused at `act` if at all. -/
structure Session.AtAct (s : Session) (deps : Deps) : Prop where
  checkpoint : PausedAtAct deps s.checkpoint
  found : ∀ i run found, s.runs i = some run → run.found = some found → PausedAtAct deps found

theorem covered_iff_consistent {s s' : Session} {call : SessionCall} {items : List StreamItem}
    (hs : s.AtAct deps) (h : sessionStep deps s call = some (s', items)) :
    Covered deps s call ↔ Consistent deps s call := by
  cases call with
  | approve i approved => exact Iff.rfl
  | advance i env latest =>
      simp only [sessionStep, Option.bind_eq_some_iff, Option.map_eq_some_iff, Prod.exists] at h
      obtain ⟨run, hrun, C, left, out, htick, -⟩ := h
      have hcovered : Covered deps s (.advance i env latest) ↔ ∀ ran ∈ ranCalls (emissions out),
          (deps.toolGate.check ran.name run.config.state.policy).requiresApproval = true →
            run.decision = some true ∧
              ∃ found, run.found = some found ∧ FirstPending found ran.name ran.arguments := by
        constructor
        · intro hall ran hran hreq
          obtain ⟨hdecision, found, hfound, hshown⟩ := hall run C left out hrun htick ran hran hreq
          have hseen := (presented_iff (hs.found i run found hrun hfound)).mp hshown
          exact ⟨hdecision, found, hfound, hseen⟩
        · intro hall run' C' left' out' hrun' htick' ran hran hreq
          rw [hrun] at hrun'
          cases hrun'
          rw [htick] at htick'
          cases htick'
          obtain ⟨hdecision, found, hfound, hfirst⟩ := hall ran hran hreq
          exact ⟨hdecision, found, hfound,
            (presented_iff (hs.found i run found hrun hfound)).mpr hfirst⟩
      rw [hcovered]
      rcases tick_cases htick with ⟨P, asked, approved, hstep, hpending, hdecision, hresume⟩ |
        ⟨hstep, hnone⟩
      · obtain ⟨hact, hP, hstate, pending, hinterrupt⟩ := asked_at hstep hpending
        cases approved with
        | false =>
            constructor
            · intro _ run' hrun' happroved
              rw [hrun] at hrun'
              cases hrun'
              rw [hdecision] at happroved
              cases happroved
            · intro _ ran hran hreq
              obtain ⟨f, hf, -, hout, -⟩ := (supervisor deps).step_leaf hresume
              rw [hP] at hf
              cases hf
              rw [hout] at hran
              obtain ⟨answer, hanswer, happroved⟩ := approved_of_ran_flagged hran (hstate ▸ hreq)
              cases hanswer
              cases happroved
        | true =>
            have hran := flagged_ran_iff hresume hP rfl
            rw [hstate] at hran
            constructor
            · intro hall run' hrun' _ _ flagged hdict tc htc
              rw [hrun] at hrun'
              cases hrun'
              obtain ⟨ran, hmem, hname, hargs, hreq⟩ :=
                (hran tc.name tc.arguments.asDict).mpr ⟨hdict, tc, htc, rfl, rfl⟩
              rw [← hname, ← hargs]
              exact (hall ran hmem hreq).2
            · intro hall ran hmem hreq
              obtain ⟨hdict, tc, htc, hname, hargs⟩ :=
                (hran ran.name ran.arguments).mp ⟨ran, hmem, rfl, rfl, hreq⟩
              have hfirst := hall run hrun hdecision hact hdict tc htc
              rw [hname, hargs] at hfirst
              exact ⟨hdecision, hfirst⟩
      · constructor
        · intro _ run' hrun' hdecision hact flagged hdict tc htc
          rw [hrun] at hrun'
          cases hrun'
          have hpending : C.pending = none := hnone.resolve_left (by simp [hdecision])
          have hempty : flagged = [] := none_flagged_of_returned hact hstep hpending hdict
          rw [hempty] at htc
          cases htc
        · intro _ ran hran hreq
          rw [not_flagged_of_unanswered hstep hran] at hreq
          cases hreq

theorem Session.AtAct.step {s s' : Session} {call : SessionCall} {items : List StreamItem}
    (hs : s.AtAct deps) (h : sessionStep deps s call = some (s', items)) : s'.AtAct deps := by
  cases call with
  | advance i env latest =>
      simp only [sessionStep, Option.bind_eq_some_iff, Option.map_eq_some_iff, Prod.exists,
        Prod.mk.injEq] at h
      obtain ⟨run, hrun, C, left, out, htick, rfl, -⟩ := h
      constructor
      · dsimp only
        split
        · exact tick_pausedAtAct htick
        · exact hs.checkpoint
      · intro j run' found hrun' hfound
        dsimp only at hrun'
        by_cases hj : j = i
        · subst hj
          rw [Function.update_self] at hrun'
          cases hrun'
          exact hs.found j run found hrun hfound
        · rw [Function.update_of_ne hj] at hrun'
          exact hs.found j run' found hrun' hfound
  | approve i approved =>
      simp only [sessionStep] at h
      split at h
      next =>
          cases h
          exact hs
      next =>
          split at h
          next => cases h
          next =>
              cases h
              refine ⟨hs.checkpoint, fun j run found hrun hfound => ?_⟩
              dsimp only at hrun
              by_cases hj : j = i
              · subst hj
                rw [Function.update_self] at hrun
                cases hrun
                cases hfound
                exact hs.checkpoint
              · rw [Function.update_of_ne hj] at hrun
                exact hs.found j run found hrun hfound

theorem Session.start_atAct (s : AgentState) : (Session.start deps s).AtAct deps := by
  constructor
  · intro pending h
    cases h
  · intro i run found hrun hfound
    by_cases hi : i = 0
    · subst hi
      simp only [Session.start, Function.update_self] at hrun
      cases hrun
      cases hfound
    · simp only [Session.start, Function.update_of_ne hi] at hrun
      cases hrun

end

/-- Approval covers what runs, over any runs of any length, exactly when every response that an
approval still answers flags nothing but the first call that was pending when it came. -/
theorem approval_covers_iff (deps : Deps) (s : AgentState) (calls : List SessionCall) :
    (sessionSystem deps).AllSteps (Covered deps) (Session.start deps s) calls ↔
      (sessionSystem deps).AllSteps (Consistent deps) (Session.start deps s) calls :=
  System.allSteps_congr (I := fun s => s.AtAct deps)
    (fun _ _ _ _ hs h => hs.step h)
    (fun _ _ _ _ hs h => covered_iff_consistent hs h)
    (Session.start_atAct s)

def askFirst : Core.Policy where
  approvalRules := { toolsRequiringApproval := {"code_exec"} }

/-- Two calls of one tool, with different arguments, in one response. -/
def twoPrograms : LLMResponse where
  content := ""
  toolCalls := [{ name := "code_exec", arguments := .obj [("code", .str "print(1)")] },
    { name := "code_exec", arguments := .obj [("code", .str "print(2)")] }]

theorem sameArguments_str {key a b : String}
    (h : SameArguments [(key, .str a)] [(key, .str b)]) : a = b := by
  have hwf : ∀ c : String, (Json.obj [(key, .str c)]).WellFormed := by
    intro c
    simp [Json.WellFormed, Json.WellFormedEntries]
  simpa [Json.sortKeys, Json.sortEntries] using Json.sortKeys_of_same h (hwf a) (hwf b)

/-- One approval of the first program runs both. -/
theorem approval_covers_not_always :
    ¬ ∀ (deps : Deps) (s : AgentState) (calls : List SessionCall),
      (sessionSystem deps).AllSteps (Covered deps) (Session.start deps s) calls := by
  intro h
  let env : Env := stubEnv twoPrograms .coder
  have hsteps := h stubDeps (stubState "q" askFirst)
    [.advance 0 env true, .advance 0 env true, .advance 0 env true, .advance 0 env true,
      .approve 1 true, .advance 1 env true]
  have happroved := ((((hsteps _ _ rfl).2 _ _ rfl).2 _ _ rfl).2 _ _ rfl).2
  have hresumed := ((happroved _ _ rfl).2 _ _ rfl).1
  obtain ⟨-, found, hfound, hshown⟩ := hresumed _ _ _ _ rfl rfl
    ⟨1, "code_exec", [("code", .str "print(2)")]⟩
    (List.mem_cons_of_mem _ (List.mem_cons_self ..)) rfl
  cases hfound
  obtain ⟨-, hsame⟩ := (presented_first rfl).mp hshown
  exact absurd (sameArguments_str hsame) (by decide)

end Lour.Gateway
