import Lour.Lib.System
/-!
# Graphs of state-updating nodes

A node reads the whole state and answers with an update, an interrupt or an
error; the graph folds the update into the state and follows its edge.  An
interrupted node is executed again from its start when the run is resumed, this
time with the value it was resumed with.  `Nested` graphs have whole graphs
among their nodes: such a node starts from the parent's state and hands its
final state back as one update.
-/

namespace Lour.Lib

/-- How one execution of a node ends. -/
inductive Outcome (υ π χ : Type) where
  | update (u : υ)
  | interrupt (payload : π)
  | error (e : χ)

/-- One execution of a node: what it emitted on the way, and how it ended. -/
structure Execution (υ π χ ο : Type) where
  out : List ο
  outcome : Outcome υ π χ

/-- What a run streams: the emissions of its nodes, one entry for each execution
of a function that ended, and one for each nested graph that was left. -/
inductive Item (υ π χ ο : Type) where
  | emitted (o : ο)
  | finished (node : String) (u : υ)
  | interrupted (node : String) (payload : π)
  | raised (node : String) (e : χ)
  | left (node : String) (u : υ)

def Outcome.item {υ π χ ο : Type} (name : String) : Outcome υ π χ → Item υ π χ ο
  | .update u => .finished name u
  | .interrupt payload => .interrupted name payload
  | .error e => .raised name e

def Execution.items {υ π χ ο : Type} (name : String) (x : Execution υ π χ ο) :
    List (Item υ π χ ο) :=
  x.out.map .emitted ++ [x.outcome.item name]

def Item.emission {υ π χ ο : Type} : Item υ π χ ο → Option ο
  | .emitted o => some o
  | _ => none

/-- The emissions among the streamed items. -/
def emissions {υ π χ ο : Type} (items : List (Item υ π χ ο)) : List ο :=
  items.filterMap Item.emission

def Item.execution {υ π χ ο : Type} : Item υ π χ ο → Option String
  | .finished node _ | .interrupted node _ | .raised node _ => some node
  | .emitted _ | .left _ _ => none

/-- The names of the functions executed, in order. -/
def executions {υ π χ ο : Type} (items : List (Item υ π χ ο)) : List String :=
  items.filterMap Item.execution

/-- What the functions of a run returned, of the part `g` of their updates. -/
def produced {υ π χ ο β : Type} (g : υ → List β) (items : List (Item υ π χ ο)) : List β :=
  items.flatMap fun
    | .finished _ u => g u
    | _ => []

/-- The request that drives a run: take the next node, or resume the paused one
with a value.  Both carry what the environment answers to that node. -/
inductive Request (ε ρ : Type) where
  | exec (env : ε)
  | resume (value : ρ) (env : ε)

namespace Request

variable {ε ρ : Type}

def env : Request ε ρ → ε
  | exec e => e
  | resume _ e => e

def answer : Request ε ρ → Option ρ
  | exec _ => none
  | resume v _ => some v

@[simp] theorem answer_exec (e : ε) : (exec e : Request ε ρ).answer = none := rfl

@[simp] theorem answer_resume (v : ρ) (e : ε) : (resume v e).answer = some v := rfl

end Request

section Emissions

variable {υ π χ ο : Type}

@[simp] theorem emissions_nil : emissions ([] : List (Item υ π χ ο)) = [] := rfl

@[simp] theorem emissions_append (xs ys : List (Item υ π χ ο)) :
    emissions (xs ++ ys) = emissions xs ++ emissions ys := by
  simp [emissions]

@[simp] theorem emissions_left (name : String) (u : υ) :
    emissions ([.left name u] : List (Item υ π χ ο)) = [] := rfl

@[simp] theorem emissions_items (name : String) (x : Execution υ π χ ο) :
    emissions (x.items name) = x.out := by
  have hout : emissions (x.out.map (Item.emitted (υ := υ) (π := π) (χ := χ))) = x.out := by
    rw [emissions, List.filterMap_map]
    exact List.filterMap_some
  have hitem : emissions [(x.outcome.item name : Item υ π χ ο)] = [] := by
    cases x.outcome <;> rfl
  rw [Execution.items, emissions_append, hout, hitem, List.append_nil]

@[simp] theorem executions_nil : executions ([] : List (Item υ π χ ο)) = [] := rfl

@[simp] theorem executions_append (xs ys : List (Item υ π χ ο)) :
    executions (xs ++ ys) = executions xs ++ executions ys := by
  simp [executions]

@[simp] theorem executions_items (name : String) (x : Execution υ π χ ο) :
    executions (x.items name) = [name] := by
  have hout : executions (x.out.map (Item.emitted (υ := υ) (π := π) (χ := χ))) = [] := by
    rw [executions, List.filterMap_map]
    exact List.filterMap_eq_nil_iff.mpr fun _ _ => rfl
  have hitem : executions [(x.outcome.item name : Item υ π χ ο)] = [name] := by
    cases x.outcome <;> rfl
  rw [Execution.items, executions_append, hout, hitem, List.nil_append]

section Produced

variable {β : Type} (g : υ → List β)

@[simp] theorem produced_nil : produced g ([] : List (Item υ π χ ο)) = [] := rfl

@[simp] theorem produced_append (xs ys : List (Item υ π χ ο)) :
    produced g (xs ++ ys) = produced g xs ++ produced g ys :=
  List.flatMap_append

@[simp] theorem produced_left (name : String) (u : υ) :
    produced g ([.left name u] : List (Item υ π χ ο)) = [] := rfl

/-- What an execution returned, if it returned. -/
def Outcome.returned : Outcome υ π χ → List β
  | .update u => g u
  | _ => []

@[simp] theorem produced_items (name : String) (x : Execution υ π χ ο) :
    produced g (x.items name) = x.outcome.returned g := by
  have hout : produced g (x.out.map (Item.emitted (υ := υ) (π := π) (χ := χ))) = [] := by
    rw [produced, List.flatMap_map]
    exact List.flatMap_eq_nil_iff.mpr fun _ _ => rfl
  have hitem : produced g [(x.outcome.item name : Item υ π χ ο)] = x.outcome.returned g := by
    cases x.outcome <;> simp [produced, Outcome.item, Outcome.returned]
  rw [Execution.items, produced_append, hout, hitem, List.nil_append]

end Produced

end Emissions

/-- Where a run of one graph stands. -/
inductive Config (ν σ π χ : Type) where
  | ready (n : ν) (s : σ)
  | paused (n : ν) (s : σ) (payload : π)
  | failed (n : ν) (s : σ) (e : χ)
  | ended (s : σ)

namespace Config

variable {ν σ π χ : Type}

def state : Config ν σ π χ → σ
  | ready _ s => s
  | paused _ s _ => s
  | failed _ s _ => s
  | ended s => s

/-- The payload of the interrupt a paused run waits on. -/
def pending : Config ν σ π χ → Option π
  | paused _ _ payload => some payload
  | _ => none

def raised : Config ν σ π χ → Bool
  | failed _ _ _ => true
  | _ => false

/-- No interrupt is pending and no node raised. -/
def Returned : Config ν σ π χ → Prop
  | ready _ _ => True
  | ended _ => True
  | paused _ _ _ => False
  | failed _ _ _ => False

/-- The node a run executes next is `n`. -/
def At (n : ν) : Config ν σ π χ → Prop
  | ready m _ => m = n
  | paused m _ _ => m = n
  | failed _ _ _ => False
  | ended _ => False

@[simp] theorem state_ready (n : ν) (s : σ) : (ready n s : Config ν σ π χ).state = s := rfl

@[simp] theorem state_paused (n : ν) (s : σ) (p : π) :
    (paused n s p : Config ν σ π χ).state = s := rfl

@[simp] theorem state_failed (n : ν) (s : σ) (e : χ) :
    (failed n s e : Config ν σ π χ).state = s := rfl

@[simp] theorem state_ended (s : σ) : (ended s : Config ν σ π χ).state = s := rfl

@[simp] theorem pending_paused (n : ν) (s : σ) (p : π) :
    (paused n s p : Config ν σ π χ).pending = some p := rfl

/-- Where a run that begins from here stands: the next node is executed from its start. -/
def restart : Config ν σ π χ → Config ν σ π χ
  | ready n s | paused n s _ | failed n s _ => ready n s
  | ended s => ended s

theorem At.unique {c : Config ν σ π χ} {m n : ν} (hm : c.At m) (hn : c.At n) : m = n := by
  cases c with
  | ready k s => exact (hm : k = m).symm.trans hn
  | paused k s payload => exact (hm : k = m).symm.trans hn
  | failed k s e => cases hm
  | ended s => cases hm

end Config

structure StateGraph (ν σ υ ε ρ π χ ο : Type) where
  name : ν → String
  entry : ν
  fold : σ → υ → σ
  node : ν → ε → Option ρ → σ → Execution υ π χ ο
  /-- The edge out of a node, read off the state its update was folded into;
  `none` is the end of the graph. -/
  next : ν → ε → σ → Option ν

namespace StateGraph

variable {ν σ υ ε ρ π χ ο : Type} (G : StateGraph ν σ υ ε ρ π χ ο)

def start (s : σ) : Config ν σ π χ := .ready G.entry s

/-- Fold the update of node `n` and follow its edge. -/
def complete (n : ν) (env : ε) (s : σ) (u : υ) : Config ν σ π χ :=
  match G.next n env (G.fold s u) with
  | some m => .ready m (G.fold s u)
  | none => .ended (G.fold s u)

def land (n : ν) (env : ε) (s : σ) : Outcome υ π χ → Config ν σ π χ
  | .update u => G.complete n env s u
  | .interrupt payload => .paused n s payload
  | .error e => .failed n s e

/-- Execute node `n`; `answer` is what its interrupt returns, when resumed. -/
def exec (n : ν) (env : ε) (answer : Option ρ) (s : σ) :
    Config ν σ π χ × List (Item υ π χ ο) :=
  let x := G.node n env answer s
  (G.land n env s x.outcome, x.items (G.name n))

def step : Config ν σ π χ → Request ε ρ → Option (Config ν σ π χ × List (Item υ π χ ο))
  | .ready n s, .exec env => some (G.exec n env none s)
  | .paused n s _, .resume value env => some (G.exec n env (some value) s)
  | _, _ => none

def system : System (Config ν σ π χ) (Request ε ρ) (Item υ π χ ο) := ⟨G.step⟩

@[simp] theorem system_step (c : Config ν σ π χ) (r : Request ε ρ) :
    G.system.step c r = G.step c r := rfl

@[simp] theorem complete_state (n : ν) (env : ε) (s : σ) (u : υ) :
    (G.complete n env s u).state = G.fold s u := by
  unfold complete
  split <;> rfl

/-- A step executes one node, in the state of the configuration, and a node is
handed an answer only where its interrupt is pending. -/
theorem step_cases {c c' : Config ν σ π χ} {r : Request ε ρ} {items : List (Item υ π χ ο)}
    (h : G.step c r = some (c', items)) :
    ∃ n, c.At n ∧ (c.pending.isSome ↔ r.answer.isSome) ∧
      c' = G.land n r.env c.state (G.node n r.env r.answer c.state).outcome ∧
      items = (G.node n r.env r.answer c.state).items (G.name n) := by
  cases c with
  | ready n s =>
      cases r with
      | exec env =>
          simp only [step, exec, Option.some.injEq, Prod.mk.injEq] at h
          exact ⟨n, rfl, by simp [Config.pending], h.1.symm, h.2.symm⟩
      | resume value env => simp [step] at h
  | paused n s payload =>
      cases r with
      | exec env => simp [step] at h
      | resume value env =>
          simp only [step, exec, Option.some.injEq, Prod.mk.injEq] at h
          exact ⟨n, rfl, by simp, h.1.symm, h.2.symm⟩
  | failed n s e => cases r <;> simp [step] at h
  | ended s => cases r <;> simp [step] at h

theorem land_state {I : σ → Prop} {n : ν} {env : ε} {s : σ} {o : Outcome υ π χ} (hs : I s)
    (hupdate : ∀ u, o = .update u → I (G.fold s u)) : I (G.land n env s o).state := by
  cases o with
  | update u => simpa [land] using hupdate u rfl
  | interrupt payload => exact hs
  | error e => exact hs

/-- A property of states that every node's update keeps is kept by every step. -/
theorem step_invariant {I : σ → Prop}
    (hnode : ∀ n env answer s u, I s → (G.node n env answer s).outcome = .update u →
      I (G.fold s u))
    (c : Config ν σ π χ) (r : Request ε ρ) (c' : Config ν σ π χ) (items : List (Item υ π χ ο))
    (hc : I c.state) (h : G.step c r = some (c', items)) : I c'.state := by
  obtain ⟨n, _, _, rfl, _⟩ := G.step_cases h
  exact G.land_state hc fun u hu => hnode n r.env r.answer c.state u hc hu

/-- A list in the state that the fold appends to grows by what the executed
functions return. -/
theorem step_produced {β : Type} {f : σ → List β} {g : υ → List β}
    (hfold : ∀ s u, f (G.fold s u) = f s ++ g u) {c c' : Config ν σ π χ} {r : Request ε ρ}
    {items : List (Item υ π χ ο)} (h : G.step c r = some (c', items)) :
    f c'.state = f c.state ++ produced g items := by
  obtain ⟨n, -, -, rfl, rfl⟩ := G.step_cases h
  rw [produced_items]
  cases ho : (G.node n r.env r.answer c.state).outcome with
  | update u => rw [land, complete_state, hfold, Outcome.returned]
  | interrupt payload => simp [land, Outcome.returned]
  | error e => simp [land, Outcome.returned]

end StateGraph

/-! ## Graphs among the nodes of a graph -/

/-- A node of a nested graph: a plain function, or a graph of its own. -/
inductive Task (κ σ υ ε ρ π χ ο : Type) where
  | plain (f : ε → Option ρ → σ → Execution υ π χ ο)
  | graph (g : StateGraph κ σ υ ε ρ π χ ο)

structure Nested (ν : Type) (κ : ν → Type) (σ υ ε ρ π χ ο : Type) where
  name : ν → String
  entry : ν
  fold : σ → υ → σ
  /-- The final state of a graph used as a node, as the update it returns. -/
  whole : σ → υ
  task : (n : ν) → Task (κ n) σ υ ε ρ π χ ο
  next : ν → ε → σ → Option ν

namespace Nested

/-- Where a run of a nested graph stands: at a plain node, or inside the graph
that node `n` is, entered from the parent's state `s`. -/
inductive Config (ν : Type) (κ : ν → Type) (σ π χ : Type) where
  | top (c : Lib.Config ν σ π χ)
  | within (n : ν) (s : σ) (c : Lib.Config (κ n) σ π χ)

variable {ν : Type} {κ : ν → Type} {σ υ ε ρ π χ ο : Type} (P : Nested ν κ σ υ ε ρ π χ ο)

namespace Config

/-- The state the next node reads. -/
def state : Config ν κ σ π χ → σ
  | top c => c.state
  | within _ _ c => c.state

def pending : Config ν κ σ π χ → Option π
  | top c => c.pending
  | within _ _ c => c.pending

def raised : Config ν κ σ π χ → Bool
  | top c => c.raised
  | within _ _ c => c.raised

def restart : Config ν κ σ π χ → Config ν κ σ π χ
  | top c => top c.restart
  | within n s c => within n s c.restart

/-- Both are inside a graph: no node of the parent has ended in between. -/
def inSameNode : Config ν κ σ π χ → Config ν κ σ π χ → Bool
  | within _ _ _, within _ _ _ => true
  | _, _ => false

end Config

/-- Enter the graph a node is, when the run arrives at one. -/
def settle : Lib.Config ν σ π χ → Config ν κ σ π χ
  | .ready n s =>
      match P.task n with
      | .plain _ => .top (.ready n s)
      | .graph g => .within n s (g.start s)
  | c => .top c

def complete (n : ν) (env : ε) (s : σ) (u : υ) : Config ν κ σ π χ :=
  match P.next n env (P.fold s u) with
  | some m => P.settle (.ready m (P.fold s u))
  | none => .top (.ended (P.fold s u))

def start (s : σ) : Config ν κ σ π χ := P.settle (.ready P.entry s)

def land (n : ν) (env : ε) (s : σ) : Outcome υ π χ → Config ν κ σ π χ
  | .update u => P.complete n env s u
  | .interrupt payload => .top (.paused n s payload)
  | .error e => .top (.failed n s e)

def exec (n : ν) (env : ε) (answer : Option ρ) (s : σ) :
    Option (Config ν κ σ π χ × List (Item υ π χ ο)) :=
  match P.task n with
  | .plain f =>
      let x := f env answer s
      some (P.land n env s x.outcome, x.items (P.name n))
  | .graph _ => none

/-- Leave the graph node `n` is once it has ended. -/
def leave (n : ν) (env : ε) (s : σ) :
    Lib.Config (κ n) σ π χ × List (Item υ π χ ο) → Config ν κ σ π χ × List (Item υ π χ ο)
  | (.ended t, items) =>
      (P.complete n env s (P.whole t), items ++ [.left (P.name n) (P.whole t)])
  | (c, items) => (.within n s c, items)

def step : Config ν κ σ π χ → Request ε ρ → Option (Config ν κ σ π χ × List (Item υ π χ ο))
  | .top (.ready n s), .exec env => P.exec n env none s
  | .top (.paused n s _), .resume value env => P.exec n env (some value) s
  | .top _, _ => none
  | .within n s c, r =>
      match P.task n with
      | .plain _ => none
      | .graph g => (g.step c r).map (P.leave n r.env s)

def system : System (Config ν κ σ π χ) (Request ε ρ) (Item υ π χ ο) := ⟨P.step⟩

@[simp] theorem system_step (c : Config ν κ σ π χ) (r : Request ε ρ) :
    P.system.step c r = P.step c r := rfl

/-- The function the run executes next, wherever in the nesting it stands. -/
def leaf : Config ν κ σ π χ → Option (ε → Option ρ → σ → Execution υ π χ ο)
  | .top (.ready n _) | .top (.paused n _ _) =>
      match P.task n with
      | .plain f => some f
      | .graph _ => none
  | .within n _ (.ready k _) | .within n _ (.paused k _ _) =>
      match P.task n with
      | .plain _ => none
      | .graph g => some (g.node k)
  | _ => none

/-- The leaf is a plain node of the nested graph or a node of a graph in it. -/
theorem leaf_cases {C : Config ν κ σ π χ} {f : ε → Option ρ → σ → Execution υ π χ ο}
    (h : P.leaf C = some f) :
    (∃ n, P.task n = .plain f) ∨ ∃ n g k, P.task n = .graph g ∧ f = g.node k := by
  have hplain : ∀ n, (match P.task n with
      | .plain f' => some f'
      | .graph _ => none) = some f → ∃ n, P.task n = .plain f := by
    intro n hn
    split at hn
    next f' hf' => exact ⟨n, by rw [hf', Option.some.inj hn]⟩
    next => cases hn
  have hgraph : ∀ n k, (match P.task n with
      | .plain _ => none
      | .graph g => some (g.node k)) = some f → ∃ n g k, P.task n = .graph g ∧ f = g.node k := by
    intro n k hn
    split at hn
    next => cases hn
    next g hg => exact ⟨n, g, k, hg, (Option.some.inj hn).symm⟩
  cases C with
  | top c =>
      cases c with
      | ready n s => exact .inl (hplain n h)
      | paused n s payload => exact .inl (hplain n h)
      | failed n s e => cases h
      | ended s => cases h
  | within n s c =>
      cases c with
      | ready k t => exact .inr (hgraph n k h)
      | paused k t payload => exact .inr (hgraph n k h)
      | failed k t e => cases h
      | ended t => cases h

@[simp] theorem settle_state (c : Lib.Config ν σ π χ) : (P.settle c).state = c.state := by
  cases c with
  | ready n s =>
      simp only [settle]
      split <;> rfl
  | paused n s payload => rfl
  | failed n s e => rfl
  | ended s => rfl

@[simp] theorem complete_state (n : ν) (env : ε) (s : σ) (u : υ) :
    (P.complete n env s u).state = P.fold s u := by
  unfold complete
  split
  · simp
  · rfl

theorem settle_ready_returned (n : ν) (s : σ) :
    (P.settle (.ready n s)).pending = none ∧ (P.settle (.ready n s)).raised = false := by
  simp only [settle]
  split <;> exact ⟨rfl, rfl⟩

theorem complete_returned (n : ν) (env : ε) (s : σ) (u : υ) :
    (P.complete n env s u).pending = none ∧ (P.complete n env s u).raised = false := by
  unfold complete
  split
  · exact P.settle_ready_returned _ _
  · exact ⟨rfl, rfl⟩

/-- `I` holds of every state the configuration keeps. -/
def Config.Holds (I : σ → Prop) : Config ν κ σ π χ → Prop
  | .top c => I c.state
  | .within _ s c => I s ∧ I c.state

theorem Config.Holds.state {I : σ → Prop} {C : Config ν κ σ π χ} (h : C.Holds I) : I C.state := by
  cases C with
  | top c => exact h
  | within n s c => exact h.2

theorem settle_holds {I : σ → Prop} {c : Lib.Config ν σ π χ} (h : I c.state) :
    (P.settle c).Holds I := by
  cases c with
  | ready n s =>
      simp only [settle]
      split
      · exact h
      · exact ⟨h, h⟩
  | paused n s payload => exact h
  | failed n s e => exact h
  | ended s => exact h

theorem complete_holds {I : σ → Prop} {n : ν} {env : ε} {s : σ} {u : υ} (h : I (P.fold s u)) :
    (P.complete n env s u).Holds I := by
  unfold complete
  split
  · exact P.settle_holds h
  · exact h

theorem land_holds {I : σ → Prop} {n : ν} {env : ε} {s : σ} {o : Outcome υ π χ} (hs : I s)
    (hupdate : ∀ u, o = .update u → I (P.fold s u)) : (P.land n env s o).Holds I := by
  cases o with
  | update u => exact P.complete_holds (hupdate u rfl)
  | interrupt payload => exact hs
  | error e => exact hs

theorem exec_cases {n : ν} {env : ε} {answer : Option ρ} {s : σ}
    {C : Config ν κ σ π χ} {items : List (Item υ π χ ο)}
    (h : P.exec n env answer s = some (C, items)) :
    ∃ f, P.task n = .plain f ∧ C = P.land n env s (f env answer s).outcome ∧
      items = (f env answer s).items (P.name n) := by
  unfold exec at h
  split at h
  next f hf =>
      simp only [Option.some.injEq, Prod.mk.injEq] at h
      exact ⟨f, hf, h.1.symm, h.2.symm⟩
  next => cases h

/-- A step of the nested graph's own executes the plain node it stands at. -/
theorem step_top {c : Lib.Config ν σ π χ} {C' : Config ν κ σ π χ} {r : Request ε ρ}
    {items : List (Item υ π χ ο)} (h : P.step (.top c) r = some (C', items)) :
    ∃ n f, c.At n ∧ P.task n = .plain f ∧ (c.pending.isSome ↔ r.answer.isSome) ∧
      C' = P.land n r.env c.state (f r.env r.answer c.state).outcome ∧
      items = (f r.env r.answer c.state).items (P.name n) := by
  cases c with
  | ready n s =>
      cases r with
      | exec env =>
          obtain ⟨f, hf, hland, hitems⟩ := P.exec_cases h
          exact ⟨n, f, rfl, hf, by simp [Lib.Config.pending], hland, hitems⟩
      | resume value env => simp [step] at h
  | paused n s payload =>
      cases r with
      | exec env => simp [step] at h
      | resume value env =>
          obtain ⟨f, hf, hland, hitems⟩ := P.exec_cases h
          exact ⟨n, f, rfl, hf, by simp, hland, hitems⟩
  | failed n s e => cases r <;> simp [step] at h
  | ended s => cases r <;> simp [step] at h

/-- A step inside a graph is one of that graph's, left where it has ended. -/
theorem step_within {n : ν} {s : σ} {c : Lib.Config (κ n) σ π χ} {C' : Config ν κ σ π χ}
    {r : Request ε ρ} {items : List (Item υ π χ ο)}
    (h : P.step (.within n s c) r = some (C', items)) :
    ∃ g c' inner, P.task n = .graph g ∧ g.step c r = some (c', inner) ∧
      P.leave n r.env s (c', inner) = (C', items) := by
  simp only [step] at h
  split at h
  next => cases h
  next g hg =>
      simp only [Option.map_eq_some_iff, Prod.exists] at h
      obtain ⟨c', inner, hstep, hleave⟩ := h
      exact ⟨g, c', inner, hg, hstep, hleave⟩

theorem leaf_top {n : ν} {c : Lib.Config ν σ π χ} {f : ε → Option ρ → σ → Execution υ π χ ο}
    (hat : c.At n) (hf : P.task n = .plain f) : P.leaf (.top c) = some f := by
  cases c with
  | ready m s =>
      cases hat
      simp [leaf, hf]
  | paused m s payload =>
      cases hat
      simp [leaf, hf]
  | failed m s e => cases hat
  | ended s => cases hat

theorem leaf_within {n : ν} {s : σ} {k : κ n} {c : Lib.Config (κ n) σ π χ}
    {g : StateGraph (κ n) σ υ ε ρ π χ ο} (hat : c.At k) (hg : P.task n = .graph g) :
    P.leaf (.within n s c) = some (g.node k) := by
  cases c with
  | ready m t =>
      cases hat
      simp [leaf, hg]
  | paused m t payload =>
      cases hat
      simp [leaf, hg]
  | failed m t e => cases hat
  | ended t => cases hat

/-- What the outcome of the executed function says of the configuration reached:
an interrupt is pending there at the same function and in the same state. -/
def Landed (f : ε → Option ρ → σ → Execution υ π χ ο) (s : σ) (C' : Config ν κ σ π χ) :
    Outcome υ π χ → Prop
  | .update _ => C'.pending = none ∧ C'.raised = false
  | .interrupt payload =>
      C'.pending = some payload ∧ C'.raised = false ∧ P.leaf C' = some f ∧ C'.state = s
  | .error _ => C'.pending = none ∧ C'.raised = true

theorem land_landed {n : ν} {f : ε → Option ρ → σ → Execution υ π χ ο} (hf : P.task n = .plain f)
    (env : ε) (s : σ) (o : Outcome υ π χ) : P.Landed f s (P.land n env s o) o := by
  cases o with
  | update u => exact P.complete_returned n env s u
  | interrupt payload => exact ⟨rfl, rfl, by simp [land, leaf, hf], rfl⟩
  | error e => exact ⟨rfl, rfl⟩

theorem leave_landed {n : ν} {g : StateGraph (κ n) σ υ ε ρ π χ ο} (hg : P.task n = .graph g)
    (k : κ n) (env : ε) (s t : σ) (o : Outcome υ π χ) (items : List (Item υ π χ ο)) :
    P.Landed (g.node k) t (P.leave n env s (g.land k env t o, items)).1 o := by
  cases o with
  | update u =>
      simp only [StateGraph.land, StateGraph.complete]
      split
      · exact ⟨rfl, rfl⟩
      · exact P.complete_returned n env s _
  | interrupt payload => exact ⟨rfl, rfl, by simp [StateGraph.land, leave, leaf, hg], rfl⟩
  | error e => exact ⟨rfl, rfl⟩

theorem leave_emissions (n : ν) (env : ε) (s : σ) (c : Lib.Config (κ n) σ π χ)
    (items : List (Item υ π χ ο)) :
    emissions (P.leave n env s (c, items)).2 = emissions items := by
  cases c <;> simp [leave]

/-- A step executes the leaf the configuration stands at, emits what that
execution emits, and lands where its outcome says. -/
theorem step_leaf {C C' : Config ν κ σ π χ} {r : Request ε ρ} {items : List (Item υ π χ ο)}
    (h : P.step C r = some (C', items)) :
    ∃ f, P.leaf C = some f ∧ (C.pending.isSome ↔ r.answer.isSome) ∧
      emissions items = (f r.env r.answer C.state).out ∧
      P.Landed f C.state C' (f r.env r.answer C.state).outcome := by
  cases C with
  | top c =>
      obtain ⟨n, f, hat, hf, hanswer, rfl, rfl⟩ := P.step_top h
      exact ⟨f, P.leaf_top hat hf, hanswer, emissions_items _ _,
        P.land_landed hf r.env c.state _⟩
  | within n s c =>
      obtain ⟨g, c', inner, hg, hstep, hleave⟩ := P.step_within h
      obtain ⟨k, hat, hanswer, rfl, rfl⟩ := g.step_cases hstep
      have hlanded := P.leave_landed hg k r.env s c.state
        (g.node k r.env r.answer c.state).outcome
        ((g.node k r.env r.answer c.state).items (g.name k))
      have hout := P.leave_emissions n r.env s
        (g.land k r.env c.state (g.node k r.env r.answer c.state).outcome)
        ((g.node k r.env r.answer c.state).items (g.name k))
      rw [hleave] at hlanded hout
      rw [emissions_items] at hout
      exact ⟨g.node k, P.leaf_within hat hg, hanswer, hout, hlanded⟩

/-- What the outcome of the executed function says of the state: `g` of it is that
of the folded update, or the state has not changed. -/
def Moved {γ : Type} (g : σ → γ) (s : σ) (C' : Config ν κ σ π χ) : Outcome υ π χ → Prop
  | .update u => g C'.state = g (P.fold s u)
  | _ => C'.state = s

theorem land_moved {γ : Type} (g : σ → γ) (n : ν) (env : ε) (s : σ) (o : Outcome υ π χ) :
    P.Moved g s (P.land n env s o) o := by
  cases o with
  | update u => exact congrArg g (P.complete_state n env s u)
  | interrupt payload => rfl
  | error e => rfl

/-- A part `g` of the state that leaving a nested graph hands to the parent moves
with every step as the executed function says. -/
theorem step_moved {γ : Type} {g : σ → γ} (hfold : ∀ n G, P.task n = .graph G → G.fold = P.fold)
    (hwhole : ∀ s t, g (P.fold s (P.whole t)) = g t) {C C' : Config ν κ σ π χ}
    {r : Request ε ρ} {items : List (Item υ π χ ο)} (h : P.step C r = some (C', items)) :
    ∀ f, P.leaf C = some f → P.Moved g C.state C' (f r.env r.answer C.state).outcome := by
  intro f hf
  cases C with
  | top c =>
      obtain ⟨n, f', hat, hf', -, rfl, -⟩ := P.step_top h
      rw [P.leaf_top hat hf', Option.some.injEq] at hf
      subst hf
      exact P.land_moved g n r.env c.state _
  | within n s c =>
      obtain ⟨G, c', inner, hG, hstep, hleave⟩ := P.step_within h
      obtain ⟨k, hat, -, hc', -⟩ := G.step_cases hstep
      rw [P.leaf_within hat hG, Option.some.injEq] at hf
      subst hf
      have hafter : C' = (P.leave n r.env s (c', inner)).1 := congrArg Prod.fst hleave.symm
      have hstate : g C'.state = g c'.state := by
        rw [hafter]
        cases c' with
        | ended t => exact (congrArg g (P.complete_state ..)).trans (hwhole s t)
        | ready m t => rfl
        | paused m t payload => rfl
        | failed m t e => rfl
      change P.Moved g c.state C' (G.node k r.env r.answer c.state).outcome
      cases ho : (G.node k r.env r.answer c.state).outcome with
      | update u =>
          rw [ho] at hc'
          rw [Moved, hstate, hc', StateGraph.land, StateGraph.complete_state, hfold n G hG]
      | interrupt payload =>
          rw [ho] at hc'
          change C'.state = c.state
          rw [hafter, hc']
          rfl
      | error e =>
          rw [ho] at hc'
          change C'.state = c.state
          rw [hafter, hc']
          rfl

variable {P} in
theorem Landed.of_pending {f : ε → Option ρ → σ → Execution υ π χ ο} {s : σ}
    {C' : Config ν κ σ π χ} {o : Outcome υ π χ} (h : P.Landed f s C' o) {payload : π}
    (hp : C'.pending = some payload) :
    o = .interrupt payload ∧ P.leaf C' = some f ∧ C'.state = s := by
  cases o with
  | update u => simp [h.1] at hp
  | interrupt payload' =>
      rw [h.1, Option.some.injEq] at hp
      exact ⟨congrArg _ hp, h.2.2⟩
  | error e => simp [h.1] at hp

variable {P} in
theorem Landed.of_raised {f : ε → Option ρ → σ → Execution υ π χ ο} {s : σ}
    {C' : Config ν κ σ π χ} {o : Outcome υ π χ} (h : P.Landed f s C' o)
    (hr : C'.raised = true) : ∃ e, o = .error e := by
  cases o with
  | update u => simp [h.2] at hr
  | interrupt payload => simp [h.2.1] at hr
  | error e => exact ⟨e, rfl⟩

/-- A property of states that every update keeps, the whole states of nested
graphs included, is kept by every step. -/
theorem step_holds {I : σ → Prop}
    (hplain : ∀ n f env answer s u, P.task n = .plain f → I s →
      (f env answer s).outcome = .update u → I (P.fold s u))
    (hgraph : ∀ n g k env answer s u, P.task n = .graph g → I s →
      (g.node k env answer s).outcome = .update u → I (g.fold s u))
    (hwhole : ∀ s t, I s → I t → I (P.fold s (P.whole t)))
    (C : Config ν κ σ π χ) (r : Request ε ρ) (C' : Config ν κ σ π χ)
    (items : List (Item υ π χ ο)) (hC : C.Holds I) (h : P.step C r = some (C', items)) :
    C'.Holds I := by
  cases C with
  | top c =>
      obtain ⟨n, f, -, hf, -, rfl, -⟩ := P.step_top h
      exact P.land_holds hC fun u hu => hplain n f r.env r.answer c.state u hf hC hu
  | within n s c =>
      obtain ⟨g, c', inner, hg, hstep, hleave⟩ := P.step_within h
      have hc' : I c'.state :=
        g.step_invariant (fun k env answer s u hs hu => hgraph n g k env answer s u hg hs hu)
          c r c' inner hC.2 hstep
      cases c' with
      | ended t =>
          simp only [leave, Prod.mk.injEq] at hleave
          rw [← hleave.1]
          exact P.complete_holds (hwhole s t hC.1 hc')
      | ready k t =>
          simp only [leave, Prod.mk.injEq] at hleave
          exact hleave.1 ▸ ⟨hC.1, hc'⟩
      | paused k t payload =>
          simp only [leave, Prod.mk.injEq] at hleave
          exact hleave.1 ▸ ⟨hC.1, hc'⟩
      | failed k t e =>
          simp only [leave, Prod.mk.injEq] at hleave
          exact hleave.1 ▸ ⟨hC.1, hc'⟩

end Nested

end Lour.Lib
