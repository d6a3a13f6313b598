import Lour.Lib.System
import Mathlib.Logic.Function.Basic
/-!
# Requests over one checkpoint

Any number of requests share a store that keeps the last committed checkpoint
and takes no lock.  A request reads the store to be admitted, loads the
checkpoint, begins a piece of work from it, runs the tasks of the work one by
one, and commits; the tasks have run long before the commit is visible, and a
request that is cut off never commits.  A task is known by the checkpoint its
work began from and by its position there.
-/

namespace Lour.Lib

/-- Work that is done from a checkpoint `γ`: `begin` is given what is left of the
command of the request, and says what it leaves of it. -/
structure Resumable (γ κ ε τ : Type) where
  admits : γ → Bool
  begin : Option κ → γ → ε → Option (γ × Option κ × List τ)
  /-- Whether the work ended in a checkpoint; otherwise it raised. -/
  commits : γ → Bool
  /-- Whether the request works on from the checkpoint it committed. -/
  goesOn : γ → Bool
  position : τ → ℕ

namespace Resumable

/-- Where a request stands; the number is the checkpoint's.  `started` says that a
task of the work has run. -/
inductive Stage (γ κ τ : Type) where
  | idle
  | admitted (command : κ)
  | working (id : ℕ) (c : γ) (command : Option κ)
  | acting (id : ℕ) (c : γ) (command : Option κ) (started : Bool) (rest : List τ)
  | abandoned (id : ℕ)
  | closed

/-- The checkpoint a request works from, or has abandoned with a task run. -/
def Stage.held {γ κ τ : Type} : Stage γ κ τ → Option ℕ
  | working id _ _ | acting id _ _ _ _ | abandoned id => some id
  | idle | admitted _ | closed => none

inductive Action (κ ε : Type) where
  | check (command : κ)
  | load
  | begin (env : ε)
  | execute
  | commit
  /-- The client goes away, or the checkpoint is not written. -/
  | abort

structure State (γ κ τ : Type) where
  id : ℕ
  checkpoint : γ
  stage : ℕ → Stage γ κ τ
  log : List (ℕ × τ)

variable {γ κ ε τ : Type} (R : Resumable γ κ ε τ)

/-- A checkpoint in the store, and no request yet. -/
def initial (c : γ) : State γ κ τ where
  id := 0
  checkpoint := c
  stage _ := .idle
  log := []

def State.moveTo (s : State γ κ τ) (i : ℕ) (stage : Stage γ κ τ) : State γ κ τ :=
  { s with stage := Function.update s.stage i stage }

@[simp] theorem State.moveTo_self (s : State γ κ τ) (i : ℕ) (stage : Stage γ κ τ) :
    (s.moveTo i stage).stage i = stage :=
  Function.update_self ..

theorem State.moveTo_of_ne (s : State γ κ τ) {i j : ℕ} (stage : Stage γ κ τ) (h : j ≠ i) :
    (s.moveTo i stage).stage j = s.stage j :=
  Function.update_of_ne h ..

/-- One step of request `i`. -/
def step (s : State γ κ τ) : ℕ × Action κ ε → Option (State γ κ τ)
  | (i, .check command) =>
      match s.stage i with
      | .idle => some (s.moveTo i (if R.admits s.checkpoint then .admitted command else .closed))
      | _ => none
  | (i, .load) =>
      match s.stage i with
      | .admitted command => some (s.moveTo i (.working s.id s.checkpoint (some command)))
      | _ => none
  | (i, .begin env) =>
      match s.stage i with
      | .working id c command =>
          match R.begin command c env with
          | some (c', command', tasks) => some (s.moveTo i (.acting id c' command' false tasks))
          | none => some (s.moveTo i .closed)
      | _ => none
  | (i, .execute) =>
      match s.stage i with
      | .acting id c command _ (task :: rest) =>
          some { s.moveTo i (.acting id c command true rest) with log := s.log ++ [(id, task)] }
      | _ => none
  | (i, .commit) =>
      match s.stage i with
      | .acting _ c command _ [] =>
          if R.commits c then
            some { s.moveTo i (if R.goesOn c then .working (s.id + 1) c command else .closed) with
              id := s.id + 1, checkpoint := c }
          else some (s.moveTo i .closed)
      | _ => none
  | (i, .abort) =>
      match s.stage i with
      | .admitted _ | .working _ _ _ => some (s.moveTo i .closed)
      | .acting id _ _ started _ =>
          some (s.moveTo i (if started then .abandoned id else .closed))
      | _ => none

def system : System (State γ κ τ) (ℕ × Action κ ε) (ℕ × τ) :=
  ⟨fun s a => (R.step s a).map fun t => (t, [])⟩

/-- Every task of every piece of work has run at most once. -/
def AtMostOnce (s : State γ κ τ) : Prop :=
  (s.log.map fun e => (e.1, R.position e.2)).Nodup

/-- A request loads the checkpoint only while no request works from it, and none has
abandoned it after a task. -/
def Exclusive (s : State γ κ τ) : ℕ × Action κ ε → Prop
  | (_, .load) => ∀ j, (s.stage j).held ≠ some s.id
  | _ => True

/-! ## Exclusive loads keep every task to one run -/

/-- What the log may say of the work a request is about to do. -/
def Unrun (log : List (ℕ × τ)) : Stage γ κ τ → Prop
  | .working id _ _ => ∀ e ∈ log, e.1 ≠ id
  | .acting id c _ started rest =>
      (rest.map R.position).Nodup ∧
      (∀ e ∈ log, e.1 = id → R.position e.2 ∉ rest.map R.position) ∧
      (R.commits c = false → started = false ∧ rest = []) ∧
      (started = false → ∀ e ∈ log, e.1 ≠ id)
  | .idle | .admitted _ | .abandoned _ | .closed => True

structure Invariant (s : State γ κ τ) : Prop where
  held_le : ∀ i k, (s.stage i).held = some k → k ≤ s.id
  held_inj : ∀ i j k, (s.stage i).held = some k → (s.stage j).held = some k → i = j
  log_le : ∀ e ∈ s.log, e.1 ≤ s.id
  unrun : ∀ i, R.Unrun s.log (s.stage i)
  store_clean : (∀ i, (s.stage i).held ≠ some s.id) → ∀ e ∈ s.log, e.1 ≠ s.id
  once : R.AtMostOnce s

variable {R}

theorem initial_invariant (c : γ) : R.Invariant (initial c) where
  held_le _ _ h := by cases h
  held_inj _ _ _ h := by cases h
  log_le _ h := by cases h
  unrun _ := trivial
  store_clean _ _ h := by cases h
  once := List.nodup_nil

/-- A request stays with its checkpoint, or lets go of one none of whose tasks
has run. -/
theorem Invariant.moveTo {s : State γ κ τ} (h : R.Invariant s) {i : ℕ} {stage : Stage γ κ τ}
    (hheld : ∀ k, stage.held = some k → (s.stage i).held = some k)
    (hunrun : R.Unrun s.log stage)
    (hrelease : stage.held = none → ∀ k, (s.stage i).held = some k → ∀ e ∈ s.log, e.1 ≠ k) :
    R.Invariant (s.moveTo i stage) := by
  have hold : ∀ j k, ((s.moveTo i stage).stage j).held = some k → (s.stage j).held = some k := by
    intro j k hj
    by_cases hji : j = i
    · subst hji
      rw [State.moveTo_self] at hj
      exact hheld k hj
    · rwa [s.moveTo_of_ne stage hji] at hj
  refine ⟨fun j k hj => h.held_le j k (hold j k hj),
    fun j j' k hj hj' => h.held_inj j j' k (hold j k hj) (hold j' k hj'), h.log_le,
    fun j => ?_, fun hfree => ?_, h.once⟩
  · by_cases hji : j = i
    · subst hji
      rwa [State.moveTo_self]
    · rw [s.moveTo_of_ne stage hji]
      exact h.unrun j
  · by_cases hi : (s.stage i).held = some s.id
    · have hnot : stage.held ≠ some s.id := by
        have := hfree i
        rwa [State.moveTo_self] at this
      cases hstage : stage.held with
      | none => exact hrelease hstage s.id hi
      | some k =>
          have hk := hheld k hstage
          rw [hi] at hk
          exact absurd (hk ▸ hstage) hnot
    · apply h.store_clean
      intro j
      by_cases hji : j = i
      · rwa [hji]
      · rw [← s.moveTo_of_ne stage hji]
        exact hfree j

theorem Invariant.load {s : State γ κ τ} (h : R.Invariant s) {i : ℕ} {command : κ}
    (hfree : ∀ j, (s.stage j).held ≠ some s.id) :
    R.Invariant (s.moveTo i (.working s.id s.checkpoint (some command))) := by
  have hself : ∀ j k, ((s.moveTo i (.working s.id s.checkpoint (some command))).stage j).held =
      some k → j = i ∧ k = s.id ∨ j ≠ i ∧ (s.stage j).held = some k := by
    intro j k hj
    by_cases hji : j = i
    · subst hji
      rw [State.moveTo_self] at hj
      exact .inl ⟨rfl, (Option.some.inj hj).symm⟩
    · rw [s.moveTo_of_ne _ hji] at hj
      exact .inr ⟨hji, hj⟩
  refine ⟨fun j k hj => ?_, fun j j' k hj hj' => ?_, h.log_le, fun j => ?_, fun hno => ?_, h.once⟩
  · rcases hself j k hj with ⟨-, rfl⟩ | ⟨-, hj⟩
    · exact Nat.le_refl _
    · exact h.held_le j k hj
  · rcases hself j k hj with ⟨rfl, rfl⟩ | ⟨-, hj⟩ <;>
      rcases hself j' _ hj' with ⟨hj'i, hk⟩ | ⟨-, hj'⟩
    · exact hj'i.symm
    · exact absurd hj' (hfree j')
    · exact absurd (hk ▸ hj) (hfree j)
    · exact h.held_inj j j' k hj hj'
  · by_cases hji : j = i
    · subst hji
      rw [State.moveTo_self]
      exact h.store_clean hfree
    · rw [s.moveTo_of_ne _ hji]
      exact h.unrun j
  · have hi := hno i
    rw [State.moveTo_self] at hi
    exact absurd rfl hi

/-- A task of another checkpoint's work changes nothing for a request. -/
theorem Unrun.append {log : List (ℕ × τ)} {stage : Stage γ κ τ} {e : ℕ × τ}
    (h : R.Unrun log stage) (hne : ∀ k, stage.held = some k → e.1 ≠ k) :
    R.Unrun (log ++ [e]) stage := by
  have hmem : ∀ e' ∈ log ++ [e], e' ∈ log ∨ e' = e := by
    intro e' he'
    simpa using he'
  cases stage with
  | idle => trivial
  | admitted command => trivial
  | abandoned k => trivial
  | closed => trivial
  | working k c command =>
      intro e' he'
      rcases hmem e' he' with he' | rfl
      · exact h e' he'
      · exact hne k rfl
  | acting k c command started rest =>
      obtain ⟨hnodup, hfresh, hraised, hclean⟩ := h
      refine ⟨hnodup, fun e' he' hid => ?_, hraised, fun hno e' he' => ?_⟩
      · rcases hmem e' he' with he' | rfl
        · exact hfresh e' he' hid
        · exact absurd hid (hne k rfl)
      · rcases hmem e' he' with he' | rfl
        · exact hclean hno e' he'
        · exact hne k rfl

theorem Invariant.execute {s : State γ κ τ} (h : R.Invariant s) {i id : ℕ} {c : γ}
    {command : Option κ} {started : Bool} {task : τ} {rest : List τ}
    (hi : s.stage i = .acting id c command started (task :: rest)) :
    R.Invariant
      { s.moveTo i (.acting id c command true rest) with log := s.log ++ [(id, task)] } := by
  have hheldi : (s.stage i).held = some id := by rw [hi]; rfl
  have hrun := h.unrun i
  rw [hi] at hrun
  obtain ⟨hnodup, hfresh, hraised, -⟩ := hrun
  rw [List.map_cons, List.nodup_cons] at hnodup
  have hheld : ∀ j, ((s.moveTo i (.acting id c command true rest)).stage j).held =
      (s.stage j).held := by
    intro j
    by_cases hji : j = i
    · rw [hji, State.moveTo_self, hheldi]
      rfl
    · rw [s.moveTo_of_ne _ hji]
  have hmem : ∀ e ∈ s.log ++ [(id, task)], e ∈ s.log ∨ e = (id, task) := by
    intro e he
    simpa using he
  refine ⟨fun j k => ?_, fun j j' k => ?_, fun e he => ?_, fun j => ?_, fun hfree => ?_, ?_⟩
  · exact hheld j ▸ h.held_le j k
  · exact hheld j ▸ hheld j' ▸ h.held_inj j j' k
  · rcases hmem e he with he | rfl
    · exact h.log_le e he
    · exact h.held_le i id hheldi
  · by_cases hji : j = i
    · subst hji
      dsimp only
      rw [State.moveTo_self]
      refine ⟨hnodup.2, fun e he hid => ?_, fun hno => ?_, fun hno => by cases hno⟩
      · rcases hmem e he with he | rfl
        · intro hin
          apply hfresh e he hid
          exact List.mem_cons_of_mem _ hin
        · exact hnodup.1
      · exact absurd (hraised hno).2 (List.cons_ne_nil _ _)
    · -- another request works from another checkpoint
      have hne : ∀ k, (s.stage j).held = some k → id ≠ k := by
        intro k hk hid
        apply hji
        exact h.held_inj j i k hk (hid ▸ hheldi)
      dsimp only
      rw [s.moveTo_of_ne _ hji]
      exact (h.unrun j).append hne
  · by_cases hid : id = s.id
    · exact absurd (hid ▸ hheldi) (hheld i ▸ hfree i)
    · intro e he
      rcases hmem e he with he | rfl
      · exact h.store_clean (fun j => hheld j ▸ hfree j) e he
      · exact hid
  · have honce := h.once
    unfold AtMostOnce at honce ⊢
    rw [List.map_append, List.nodup_append]
    refine ⟨honce, by simp, fun a ha b hb => ?_⟩
    obtain ⟨e, he, rfl⟩ := List.mem_map.mp ha
    have hb : b = (id, R.position task) := by simpa using hb
    rw [hb]
    intro heq
    have hid : e.1 = id := congrArg Prod.fst heq
    have hpos : R.position e.2 = R.position task := congrArg Prod.snd heq
    exact hfresh e he hid (hpos ▸ List.mem_cons_self ..)

theorem Invariant.commit {s : State γ κ τ} (h : R.Invariant s) {i : ℕ} {c : γ}
    {command : Option κ} :
    R.Invariant { s.moveTo i (if R.goesOn c then .working (s.id + 1) c command else .closed) with
      id := s.id + 1, checkpoint := c } := by
  have hold : ∀ e ∈ s.log, e.1 ≠ s.id + 1 := by
    intro e he heq
    have := h.log_le e he
    omega
  have hheld : ∀ j k, ((s.moveTo i (if R.goesOn c then .working (s.id + 1) c command
      else .closed)).stage j).held = some k →
      j = i ∧ k = s.id + 1 ∨ j ≠ i ∧ (s.stage j).held = some k := by
    intro j k hj
    by_cases hji : j = i
    · subst hji
      rw [State.moveTo_self] at hj
      split at hj
      · exact .inl ⟨rfl, (Option.some.inj hj).symm⟩
      · cases hj
    · rw [s.moveTo_of_ne _ hji] at hj
      exact .inr ⟨hji, hj⟩
  refine ⟨fun j k hj => ?_, fun j j' k hj hj' => ?_, fun e he => ?_, fun j => ?_, fun _ => hold,
    h.once⟩
  · rcases hheld j k hj with ⟨-, rfl⟩ | ⟨-, hj⟩
    · exact Nat.le_refl _
    · exact Nat.le_succ_of_le (h.held_le j k hj)
  · rcases hheld j k hj with ⟨rfl, rfl⟩ | ⟨-, hj⟩ <;>
      rcases hheld j' _ hj' with ⟨hj'i, hk⟩ | ⟨-, hj'⟩
    · exact hj'i.symm
    · exact absurd (h.held_le j' _ hj') (by omega)
    · exact absurd (h.held_le j _ hj) (by omega)
    · exact h.held_inj j j' k hj hj'
  · exact Nat.le_succ_of_le (h.log_le e he)
  · by_cases hji : j = i
    · subst hji
      dsimp only
      rw [State.moveTo_self]
      split
      · exact hold
      · trivial
    · dsimp only
      rw [s.moveTo_of_ne _ hji]
      exact h.unrun j

/-- The positions of a piece of work are distinct, and work that raises has no
tasks. -/
structure Sound (R : Resumable γ κ ε τ) : Prop where
  positions : ∀ command c env c' command' tasks,
    R.begin command c env = some (c', command', tasks) → (tasks.map R.position).Nodup
  raised : ∀ command c env c' command' tasks,
    R.begin command c env = some (c', command', tasks) → R.commits c' = false → tasks = []

/-- A request that ends with none of the tasks of its checkpoint run. -/
theorem Invariant.close {s : State γ κ τ} (h : R.Invariant s) {i : ℕ}
    (hclean : ∀ k, (s.stage i).held = some k → ∀ e ∈ s.log, e.1 ≠ k) :
    R.Invariant (s.moveTo i .closed) := by
  refine h.moveTo (fun k hk => ?_) trivial (fun _ => hclean)
  cases hk

theorem step_invariant (hR : R.Sound) {s t : State γ κ τ} {a : ℕ × Action κ ε}
    (h : R.Invariant s) (hexclusive : Exclusive s a) (hstep : R.step s a = some t) :
    R.Invariant t := by
  obtain ⟨i, action⟩ := a
  cases hstage : s.stage i with
  | idle =>
      cases action with
      | check command =>
          simp only [step, hstage, Option.some.injEq] at hstep
          subst hstep
          refine h.moveTo (fun k hk => ?_) ?_ (fun _ k hk => ?_)
          · split at hk <;> cases hk
          · split <;> trivial
          · rw [hstage] at hk
            cases hk
      | load | begin | execute | commit | abort => simp [step, hstage] at hstep
  | admitted command =>
      cases action with
      | load =>
          simp only [step, hstage, Option.some.injEq] at hstep
          subst hstep
          exact h.load hexclusive
      | abort =>
          simp only [step, hstage, Option.some.injEq] at hstep
          subst hstep
          apply h.close
          intro k hk
          rw [hstage] at hk
          cases hk
      | check | begin | execute | commit => simp [step, hstage] at hstep
  | working id c command =>
      have hclean := h.unrun i
      rw [hstage] at hclean
      have hclose : R.Invariant (s.moveTo i .closed) := by
        apply h.close
        intro k hk
        rw [hstage] at hk
        cases hk
        exact hclean
      cases action with
      | begin env =>
          simp only [step, hstage] at hstep
          split at hstep
          next c' command' tasks hbegin =>
              cases hstep
              refine h.moveTo (fun k hk => hstage ▸ hk) ⟨?_, ?_, ?_, ?_⟩ (fun hno => ?_)
              · exact hR.positions _ _ _ _ _ _ hbegin
              · intro e he hid
                exact absurd hid (hclean e he)
              · intro hno
                exact ⟨rfl, hR.raised _ _ _ _ _ _ hbegin hno⟩
              · intro _
                exact hclean
              · cases hno
          next =>
              cases hstep
              exact hclose
      | abort =>
          simp only [step, hstage, Option.some.injEq] at hstep
          subst hstep
          exact hclose
      | check | load | execute | commit => simp [step, hstage] at hstep
  | acting id c command started rest =>
      have hrun := h.unrun i
      rw [hstage] at hrun
      obtain ⟨-, -, hraised, hclean⟩ := hrun
      have hclose : started = false → R.Invariant (s.moveTo i .closed) := by
        intro hnot
        apply h.close
        intro k hk
        rw [hstage] at hk
        cases hk
        exact hclean hnot
      cases action with
      | execute =>
          cases rest with
          | nil => simp [step, hstage] at hstep
          | cons task rest =>
              simp only [step, hstage, Option.some.injEq] at hstep
              subst hstep
              exact h.execute hstage
      | commit =>
          cases rest with
          | nil =>
              simp only [step, hstage] at hstep
              split at hstep
              next =>
                  cases hstep
                  exact h.commit
              next hno =>
                  cases hstep
                  exact hclose (hraised (by simpa using hno)).1
          | cons task rest => simp [step, hstage] at hstep
      | abort =>
          simp only [step, hstage, Option.some.injEq] at hstep
          subst hstep
          cases started with
          | false => exact hclose rfl
          | true =>
              -- it keeps the checkpoint from being loaded again
              refine h.moveTo (fun k hk => ?_) trivial (fun hno => by cases hno)
              rw [hstage]
              exact hk
      | check | load | begin => simp [step, hstage] at hstep
  | abandoned id => cases action <;> simp [step, hstage] at hstep
  | closed => cases action <;> simp [step, hstage] at hstep

/-- In a run whose loads are all exclusive, whatever is cut off, every task runs at most once. -/
theorem atMostOnce_of_exclusive (hR : R.Sound) (c : γ) {as : List (ℕ × Action κ ε)}
    (h : R.system.AllSteps Exclusive (initial c) as) :
    R.system.AllStates R.AtMostOnce (initial c) as := by
  refine (System.allStates_of_allSteps (I := R.Invariant) ?_ (initial_invariant c) h).mono
    fun s hs => hs.once
  intro s a t out hs hexclusive hstep
  simp only [system, Option.map_eq_some_iff, Prod.mk.injEq] at hstep
  obtain ⟨t', hstep, rfl, -⟩ := hstep
  exact step_invariant hR hs hexclusive hstep

end Resumable

end Lour.Lib
