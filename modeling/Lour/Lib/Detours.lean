import Lour.Lib.StateGraph
/-!
# Runs without their detours

A run may step into states it only waits in: a node is interrupted, and executed
again once the run is resumed.  `System.straighten` drops these steps from the
labels, and `System.Straightens` says that a second system follows the first
along a map of states: it stays where it is when the first steps into waiting,
and answers every other step by one of its own of which the same is seen.  The
rest instantiates this at nested graphs, node by node.
-/

namespace Lour.Lib

namespace System

variable {σ τ α β ω γ : Type*}

/-- The labels of the steps that do not end in a state that waits. -/
def straighten (S : System σ α ω) (waits : σ → Bool) (label : α → β) : σ → List α → List β
  | _, [] => []
  | s, a :: as =>
      match S.step s a with
      | none => []
      | some (t, _) =>
          if waits t then straighten S waits label t as
          else label a :: straighten S waits label t as

/-- `T` follows `S` along `image`, but for the steps of `S` into waiting. -/
structure Straightens (S : System σ α ω) (T : System τ β ω) (waits : σ → Bool) (label : α → β)
    (image : σ → τ) (seen : ω → Option γ) (good : σ → Prop) (allowed : α → Prop) : Prop where
  back : ∀ s a t out, S.step s a = some (t, out) → good t → good s
  wait : ∀ s a t out, S.step s a = some (t, out) → allowed a → good t → waits t = true →
    image t = image s ∧ out.filterMap seen = []
  move : ∀ s a t out, S.step s a = some (t, out) → allowed a → good t → waits t = false →
    ∃ out', T.step (image s) (label a) = some (image t, out') ∧
      out'.filterMap seen = out.filterMap seen

/-- What holds of one step holds of a run that ends well: without its detours it is a
run of the second system between the images, and the same is seen of both. -/
theorem Straightens.run {S : System σ α ω} {T : System τ β ω} {waits : σ → Bool}
    {label : α → β} {image : σ → τ} {seen : ω → Option γ} {good : σ → Prop}
    {allowed : α → Prop} (h : Straightens S T waits label image seen good allowed)
    {s u : σ} {as : List α} {outs : List ω} (hallowed : ∀ a ∈ as, allowed a) (hu : good u)
    (hrun : S.run s as = some (u, outs)) :
    ∃ outs', T.run (image s) (S.straighten waits label s as) = some (image u, outs') ∧
      outs'.filterMap seen = outs.filterMap seen := by
  have hgood : S.AllStates good s as := AllStates.of_last h.back hrun hu
  induction as generalizing s outs with
  | nil =>
      cases hrun
      exact ⟨[], rfl, rfl⟩
  | cons a as ih =>
      obtain ⟨t, out, rest, ha, hrest, rfl⟩ := S.run_cons.mp hrun
      obtain ⟨hfirst, hlater⟩ := List.forall_mem_cons.mp hallowed
      have hts : S.AllStates good t as := hgood.2 t out ha
      have ht : good t := by
        cases as with
        | nil => exact hts
        | cons b bs => exact hts.1
      obtain ⟨outs', hrun', hseen⟩ := ih hlater hrest hts
      rw [List.filterMap_append, ← hseen]
      cases hw : waits t with
      | true =>
          obtain ⟨himage, hquiet⟩ := h.wait s a t out ha hfirst ht hw
          refine ⟨outs', ?_, ?_⟩
          · simp only [straighten, ha, hw, if_true]
            rw [← himage]
            exact hrun'
          · rw [hquiet, List.nil_append]
      | false =>
          obtain ⟨out', hstep', hsame⟩ := h.move s a t out ha hfirst ht hw
          refine ⟨out' ++ outs', ?_, ?_⟩
          · simp only [straighten, ha, hw, Bool.false_eq_true, if_false]
            exact T.run_cons.mpr ⟨_, out', outs', hstep', hrun', rfl⟩
          · rw [List.filterMap_append, hsame]

end System

/-! ## Nested graphs whose interrupts are answered -/

namespace Config

variable {ν σ π χ : Type}

/-- The configuration without its interrupt, in the mapped state. -/
def straight (φ : σ → σ) : Config ν σ π χ → Config ν σ π χ
  | ready n s => ready n (φ s)
  | paused n s _ => ready n (φ s)
  | failed n s e => failed n (φ s) e
  | ended s => ended (φ s)

end Config

/-- What is seen of an item: the emissions to keep, and the updates that were
returned, up to `ψ`. -/
def Item.seen {υ π χ ο : Type} (keep : ο → Bool) (ψ : υ → υ) :
    Item υ π χ ο → Option (Item υ π χ ο)
  | .emitted o => if keep o then some (.emitted o) else none
  | .finished node u => some (.finished node (ψ u))
  | .left node u => some (.left node (ψ u))
  | .interrupted _ _ => none
  | .raised node e => some (.raised node e)

/-- An interrupted execution emits nothing to keep; one that returns, given no
answer or one that `agrees`, would have done the same unasked in the mapped state. -/
structure Follows {σ υ ε ρ π χ ο : Type} (f : ε → Option ρ → σ → Execution υ π χ ο)
    (fold : σ → υ → σ) (φ : σ → σ) (agrees : ρ → Prop) (keep : ο → Bool) : Prop where
  interrupt : ∀ env answer s payload, (f env answer s).outcome = .interrupt payload →
    ∀ o ∈ (f env answer s).out, keep o = false
  update : ∀ env answer s u, (∀ v ∈ answer, agrees v) →
    (f env answer s).outcome = .update u →
    f env none (φ s) = f env answer s ∧ fold (φ s) u = φ (fold s u)

/-- An execution that is interrupted leaves nothing to be seen. -/
theorem Follows.quiet {σ υ ε ρ π χ ο : Type} {f : ε → Option ρ → σ → Execution υ π χ ο}
    {fold : σ → υ → σ} {φ : σ → σ} {ψ : υ → υ} {agrees : ρ → Prop} {keep : ο → Bool}
    (hf : Follows f fold φ agrees keep) {env : ε} {answer : Option ρ} {s : σ} {payload : π}
    (hout : (f env answer s).outcome = .interrupt payload) (name : String) :
    ((f env answer s).items name).filterMap (Item.seen keep ψ) = [] := by
  have hkeep := hf.interrupt env answer s payload hout
  simp only [Execution.items, hout, List.filterMap_append, List.filterMap_map,
    List.append_eq_nil_iff, List.filterMap_eq_nil_iff]
  constructor
  · intro o ho
    simp [Item.seen, hkeep o ho]
  · intro item hitem
    rw [List.mem_singleton.mp hitem]
    rfl

namespace Nested

variable {ν : Type} {κ : ν → Type} {σ υ ε ρ π χ ο : Type}

def Config.straight (φ : σ → σ) : Config ν κ σ π χ → Config ν κ σ π χ
  | .top c => .top (c.straight φ)
  | .within n s c => .within n (φ s) (c.straight φ)

/-- Every node follows, every edge is the same in the mapped state, and the state a
graph hands back is mapped with the one it is folded into. -/
structure Straight (P : Nested ν κ σ υ ε ρ π χ ο) (φ : σ → σ) (ψ : υ → υ) (agrees : ρ → Prop)
    (keep : ο → Bool) : Prop where
  fold_eq : ∀ n g, P.task n = .graph g → g.fold = P.fold
  plain : ∀ n f, P.task n = .plain f → Follows f P.fold φ agrees keep
  graph : ∀ n g k, P.task n = .graph g → Follows (g.node k) P.fold φ agrees keep
  next : ∀ n env s, P.next n env (φ s) = P.next n env s
  inner_next : ∀ n g k env s, P.task n = .graph g → g.next k env (φ s) = g.next k env s
  whole_fold : ∀ s t, P.fold (φ s) (P.whole (φ t)) = φ (P.fold s (P.whole t))
  whole_seen : ∀ t, ψ (P.whole (φ t)) = ψ (P.whole t)

section

variable {P : Nested ν κ σ υ ε ρ π χ ο} {φ : σ → σ} {ψ : υ → υ} {agrees : ρ → Prop}
  {keep : ο → Bool}

theorem settle_straight (n : ν) (s : σ) :
    P.settle (.ready n (φ s)) = (P.settle (.ready n s)).straight φ := by
  simp only [settle]
  split <;> rfl

theorem Straight.complete (h : P.Straight φ ψ agrees keep) {n : ν} {env : ε} {s : σ} {u u' : υ}
    (hfold : P.fold (φ s) u' = φ (P.fold s u)) :
    P.complete n env (φ s) u' = (P.complete n env s u).straight φ := by
  unfold Nested.complete
  rw [hfold, h.next]
  cases P.next n env (P.fold s u) with
  | none => rfl
  | some m => exact settle_straight m (P.fold s u)

theorem pending_of_land {n : ν} {env : ε} {s : σ} {o : Outcome υ π χ} :
    (P.land n env s o).pending.isSome = true ↔ ∃ payload, o = .interrupt payload := by
  cases o with
  | update u => simp [land, (P.complete_returned n env s u).1]
  | interrupt payload => simp [land, Config.pending]
  | error e => simp [land, Config.pending, Lib.Config.pending]

/-- The step of a graph of its own. -/
theorem straight_top (h : P.Straight φ ψ agrees keep) {c : Lib.Config ν σ π χ}
    {C' : Config ν κ σ π χ} {r : Request ε ρ} {items : List (Item υ π χ ο)}
    (hagrees : ∀ v ∈ r.answer, agrees v) (hstep : P.step (.top c) r = some (C', items))
    (hraised : C'.raised = false) :
    (C'.pending.isSome = true → C'.straight φ = .top (c.straight φ) ∧
      items.filterMap (Item.seen keep ψ) = []) ∧
    (C'.pending.isSome = false →
      P.step (.top (c.straight φ)) (.exec r.env) = some (C'.straight φ, items)) := by
  obtain ⟨n, f, hat, hf, -, rfl, rfl⟩ := P.step_top hstep
  have hfollows := h.plain n f hf
  have hready : c.straight φ = .ready n (φ c.state) := by
    cases c with
    | ready m s =>
        cases hat
        rfl
    | paused m s payload =>
        cases hat
        rfl
    | failed m s e => cases hat
    | ended s => cases hat
  rw [hready]
  cases ho : (f r.env r.answer c.state).outcome with
  | update u =>
      obtain ⟨hsame, hfold⟩ := hfollows.update r.env r.answer c.state u hagrees ho
      constructor
      · intro hpending
        obtain ⟨payload, hinterrupt⟩ := pending_of_land.mp hpending
        cases hinterrupt
      · intro _
        simp only [step, exec, hf, hsame, ho, land]
        rw [h.complete hfold]
  | interrupt payload =>
      constructor
      · intro _
        exact ⟨rfl, hfollows.quiet ho (P.name n)⟩
      · intro hpending
        cases hpending
  | error e =>
      rw [ho] at hraised
      cases hraised

/-- The step of a graph among the nodes. -/
theorem straight_within (h : P.Straight φ ψ agrees keep) {n : ν} {s : σ}
    {c : Lib.Config (κ n) σ π χ} {C' : Config ν κ σ π χ} {r : Request ε ρ}
    {items : List (Item υ π χ ο)} (hagrees : ∀ v ∈ r.answer, agrees v)
    (hstep : P.step (.within n s c) r = some (C', items)) (hraised : C'.raised = false) :
    (C'.pending.isSome = true → C'.straight φ = .within n (φ s) (c.straight φ) ∧
      items.filterMap (Item.seen keep ψ) = []) ∧
    (C'.pending.isSome = false →
      ∃ items', P.step (.within n (φ s) (c.straight φ)) (.exec r.env) =
          some (C'.straight φ, items') ∧
        items'.filterMap (Item.seen keep ψ) = items.filterMap (Item.seen keep ψ)) := by
  obtain ⟨g, c', inner, hg, hinner, hleave⟩ := P.step_within hstep
  obtain ⟨k, hat, -, hc', hitems⟩ := g.step_cases hinner
  have hfollows := h.graph n g k hg
  have hready : c.straight φ = .ready k (φ c.state) := by
    cases c with
    | ready m t =>
        cases hat
        rfl
    | paused m t payload =>
        cases hat
        rfl
    | failed m t e => cases hat
    | ended t => cases hat
  rw [hready]
  cases ho : (g.node k r.env r.answer c.state).outcome with
  | update u =>
      obtain ⟨hsame, hfold⟩ := hfollows.update r.env r.answer c.state u hagrees ho
      rw [ho, StateGraph.land] at hc'
      -- the graph's own step, in the mapped state
      have hown : g.step (.ready k (φ c.state)) (.exec r.env) =
          some (c'.straight φ, inner) := by
        simp only [StateGraph.step, StateGraph.exec, hsame, ho, StateGraph.land, ← hitems]
        rw [hc', StateGraph.complete, StateGraph.complete, h.fold_eq n g hg, hfold,
          h.inner_next n g k r.env _ hg]
        cases g.next k r.env (P.fold c.state u) <;> rfl
      have hstep' : P.step (.within n (φ s) (.ready k (φ c.state))) (.exec r.env) =
          some (P.leave n r.env (φ s) (c'.straight φ, inner)) := by
        simp only [step, hg]
        rw [hown]
        rfl
      rw [hstep']
      cases hended : c' with
      | ended t =>
          rw [hended] at hleave
          simp only [leave, Prod.mk.injEq] at hleave
          obtain ⟨rfl, rfl⟩ := hleave
          constructor
          · intro hpending
            rw [(P.complete_returned n r.env s (P.whole t)).1] at hpending
            cases hpending
          · intro _
            refine ⟨inner ++ [.left (P.name n) (P.whole (φ t))], ?_, ?_⟩
            · simp only [Lib.Config.straight, leave]
              rw [h.complete (h.whole_fold s t)]
            · simp [Item.seen, h.whole_seen t]
      | ready m t =>
          rw [hended] at hleave
          simp only [leave, Prod.mk.injEq] at hleave
          obtain ⟨rfl, rfl⟩ := hleave
          exact ⟨fun hpending => absurd hpending Bool.false_ne_true, fun _ => ⟨inner, rfl, rfl⟩⟩
      | paused m t payload =>
          rw [StateGraph.complete] at hc'
          split at hc' <;> simp [hended] at hc'
      | failed m t e =>
          rw [StateGraph.complete] at hc'
          split at hc' <;> simp [hended] at hc'
  | interrupt payload =>
      rw [ho, StateGraph.land] at hc'
      rw [hc'] at hleave
      simp only [leave, Prod.mk.injEq] at hleave
      obtain ⟨rfl, rfl⟩ := hleave
      constructor
      · intro _
        refine ⟨rfl, ?_⟩
        rw [hitems]
        exact hfollows.quiet ho (g.name k)
      · intro hpending
        cases hpending
  | error e =>
      rw [ho, StateGraph.land] at hc'
      rw [hc'] at hleave
      simp only [leave, Prod.mk.injEq] at hleave
      obtain ⟨rfl, rfl⟩ := hleave
      cases hraised

/-- A configuration in which a node raised has no step. -/
theorem raised_of_step {C C' : Config ν κ σ π χ} {r : Request ε ρ} {items : List (Item υ π χ ο)}
    (hstep : P.step C r = some (C', items)) : C.raised = false := by
  cases C with
  | top c =>
      obtain ⟨n, f, hat, -⟩ := P.step_top hstep
      cases c with
      | failed m s e => cases hat
      | _ => rfl
  | within n s c =>
      obtain ⟨g, c', inner, -, hinner, -⟩ := P.step_within hstep
      obtain ⟨k, hat, -⟩ := g.step_cases hinner
      cases c with
      | failed m t e => cases hat
      | _ => rfl

/-- A nested graph whose nodes follow is followed by itself from the mapped state, with
the interrupted executions dropped and the others unasked. -/
theorem Straight.straightens (h : P.Straight φ ψ agrees keep) :
    P.system.Straightens P.system (fun C => C.pending.isSome)
      (fun r => (.exec r.env : Request ε ρ)) (Config.straight φ) (Item.seen keep ψ)
      (fun C => C.raised = false) (fun r => ∀ v ∈ r.answer, agrees v) where
  back _ _ _ _ hstep _ := raised_of_step hstep
  wait C r C' items hstep hagrees hraised hpending := by
    cases C with
    | top c => exact (straight_top h hagrees hstep hraised).1 hpending
    | within n s c => exact (straight_within h hagrees hstep hraised).1 hpending
  move C r C' items hstep hagrees hraised hpending := by
    cases C with
    | top c => exact ⟨items, (straight_top h hagrees hstep hraised).2 hpending, rfl⟩
    | within n s c => exact (straight_within h hagrees hstep hraised).2 hpending

end

end Nested

end Lour.Lib
