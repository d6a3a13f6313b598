import Mathlib.Data.List.Basic
/-!
# Labelled systems with outputs

A `System` answers a label in a state with a successor and the outputs the step
emits, or refuses it.  Runs are lists of labels.  Everything proved about runs
elsewhere goes through the rules below: an invariant carried by every step, a
relation to what was emitted so far, a measure that steps bring down, a condition
checked at every step (`AllSteps`), and a property of every state a run visits
(`AllStates`).
-/

namespace Lour.Lib

/-- A partial, deterministic transition function with outputs. -/
structure System (σ α ω : Type*) where
  step : σ → α → Option (σ × List ω)

namespace System

variable {σ α ω : Type*} (S : System σ α ω)

/-- Answer the labels in order, collecting what the steps emit. -/
def run : σ → List α → Option (σ × List ω)
  | s, [] => some (s, [])
  | s, a :: as =>
      (S.step s a).bind fun (t, out) =>
        (run t as).map fun (u, outs) => (u, out ++ outs)

@[simp] theorem run_nil (s : σ) : S.run s [] = some (s, []) := rfl

theorem run_cons {s u : σ} {a : α} {as : List α} {outs : List ω} :
    S.run s (a :: as) = some (u, outs) ↔
      ∃ t out rest, S.step s a = some (t, out) ∧ S.run t as = some (u, rest) ∧
        outs = out ++ rest := by
  simp only [run, Option.bind_eq_some_iff, Option.map_eq_some_iff, Prod.exists, Prod.mk.injEq]
  constructor
  · rintro ⟨t, out, hstep, _, rest, hrun, rfl, rfl⟩
    exact ⟨t, out, rest, hstep, hrun, rfl⟩
  · rintro ⟨t, out, rest, hstep, hrun, rfl⟩
    exact ⟨t, out, hstep, u, rest, hrun, rfl, rfl⟩

theorem run_append {s u : σ} {as bs : List α} {outs : List ω} :
    S.run s (as ++ bs) = some (u, outs) ↔
      ∃ t out rest, S.run s as = some (t, out) ∧ S.run t bs = some (u, rest) ∧
        outs = out ++ rest := by
  induction as generalizing s outs with
  | nil => simp
  | cons a as ih =>
      rw [List.cons_append, run_cons]
      constructor
      · rintro ⟨t, out, rest, hstep, hrun, rfl⟩
        obtain ⟨t', out', rest', hfirst, hrest, rfl⟩ := ih.mp hrun
        exact ⟨t', out ++ out', rest', S.run_cons.mpr ⟨t, out, out', hstep, hfirst, rfl⟩,
          hrest, by simp⟩
      · rintro ⟨t, _, rest, hfirst, hrest, rfl⟩
        obtain ⟨t', out', rest', hstep, hrun, rfl⟩ := S.run_cons.mp hfirst
        exact ⟨t', out', rest' ++ rest, hstep, ih.mpr ⟨t, rest', rest, hrun, hrest, rfl⟩,
          by simp⟩

theorem run_singleton {s u : σ} {a : α} {outs : List ω} :
    S.run s [a] = some (u, outs) ↔ S.step s a = some (u, outs) := by
  rw [run_cons]
  simp

/-- One more step along a stream of labels. -/
theorem run_range_succ {S : System σ α ω} {labels : ℕ → α} {k : ℕ} {s t u : σ}
    {outs out : List ω} (hrun : S.run s ((List.range k).map labels) = some (t, outs))
    (hstep : S.step t (labels k) = some (u, out)) :
    S.run s ((List.range (k + 1)).map labels) = some (u, outs ++ out) := by
  rw [List.range_succ, List.map_append, run_append]
  exact ⟨t, outs, out, hrun, S.run_singleton.mpr hstep, rfl⟩

/-- `P` holds of every state and label at which a step of the run is taken. -/
def AllSteps (P : σ → α → Prop) : σ → List α → Prop
  | _, [] => True
  | s, a :: as => ∀ t out, S.step s a = some (t, out) → P s a ∧ AllSteps P t as

variable {S} in
theorem AllSteps.cons {P : σ → α → Prop} {s t : σ} {a : α} {as : List α} {out : List ω}
    (hstep : S.step s a = some (t, out)) (hP : P s a) (hrest : S.AllSteps P t as) :
    S.AllSteps P s (a :: as) := by
  intro t' out' hstep'
  rw [hstep] at hstep'
  cases hstep'
  exact ⟨hP, hrest⟩

/-- Of a given run the condition can be checked. -/
instance AllSteps.decidable {P : σ → α → Prop} [∀ s a, Decidable (P s a)] :
    ∀ s as, Decidable (S.AllSteps P s as)
  | _, [] => .isTrue trivial
  | s, a :: as =>
      match h : S.step s a with
      | none => .isTrue fun t out hstep => by rw [h] at hstep; cases hstep
      | some (t, out) =>
          have := AllSteps.decidable (P := P) t as
          decidable_of_iff (P s a ∧ S.AllSteps P t as)
            ⟨fun hP u out' hstep => by rw [h] at hstep; cases hstep; exact hP,
              fun hall => hall t out h⟩

/-- `P` holds of every state the run visits, the first one included. -/
def AllStates (P : σ → Prop) : σ → List α → Prop
  | s, [] => P s
  | s, a :: as => P s ∧ ∀ t out, S.step s a = some (t, out) → AllStates P t as

/-! ## Rules for whole runs -/

section Rules

variable {S} {I : σ → Prop}

theorem invariant_run
    (hstep : ∀ s a t out, I s → S.step s a = some (t, out) → I t)
    {s u : σ} {as : List α} {outs : List ω} (hs : I s) (hrun : S.run s as = some (u, outs)) :
    I u := by
  induction as generalizing s outs with
  | nil =>
      cases hrun
      exact hs
  | cons a as ih =>
      obtain ⟨t, out, rest, ha, hrest, rfl⟩ := S.run_cons.mp hrun
      exact ih (hstep s a t out hs ha) hrest

/-- An invariant kept by the steps that emit nothing but what meets `Q` is kept by the
runs that do. -/
theorem invariant_run_of_outs {Q : ω → Prop}
    (hstep : ∀ s a t out, I s → (∀ o ∈ out, Q o) → S.step s a = some (t, out) → I t)
    {s u : σ} {as : List α} {outs : List ω} (hs : I s) (houts : ∀ o ∈ outs, Q o)
    (hrun : S.run s as = some (u, outs)) : I u := by
  induction as generalizing s outs with
  | nil =>
      cases hrun
      exact hs
  | cons a as ih =>
      obtain ⟨t, out, rest, ha, hrest, rfl⟩ := S.run_cons.mp hrun
      have ht : I t := hstep s a t out hs (fun o ho => houts o (List.mem_append_left _ ho)) ha
      exact ih ht (fun o ho => houts o (List.mem_append_right _ ho)) hrest

/-- Where no step emits more than one output, a run can be taken apart at any of them. -/
theorem run_split (hone : ∀ s a t out, S.step s a = some (t, out) → out.length ≤ 1)
    {s u : σ} {as : List α} {before after : List ω} {o : ω}
    (hrun : S.run s as = some (u, before ++ o :: after)) :
    ∃ as₁ a as₂ t t', S.run s as₁ = some (t, before) ∧ S.step t a = some (t', [o]) ∧
      S.run t' as₂ = some (u, after) := by
  induction as generalizing s before with
  | nil =>
      rw [run_nil, Option.some.injEq, Prod.mk.injEq] at hrun
      exact absurd hrun.2.symm (by simp)
  | cons a as ih =>
      obtain ⟨t, out, rest, ha, hrest, heq⟩ := S.run_cons.mp hrun
      match out, hone s a t out ha with
      | [], _ =>
          rw [List.nil_append] at heq
          obtain ⟨as₁, b, as₂, v, v', hfirst, hb, hlast⟩ := ih (heq ▸ hrest)
          exact ⟨a :: as₁, b, as₂, v, v', S.run_cons.mpr ⟨t, [], before, ha, hfirst, rfl⟩, hb,
            hlast⟩
      | [x], _ =>
          cases before with
          | nil =>
              cases heq
              exact ⟨[], a, as, s, t, rfl, ha, hrest⟩
          | cons y before =>
              cases heq
              obtain ⟨as₁, b, as₂, v, v', hfirst, hb, hlast⟩ := ih hrest
              exact ⟨a :: as₁, b, as₂, v, v', S.run_cons.mpr ⟨t, _, before, ha, hfirst, rfl⟩, hb,
                hlast⟩

/-- A relation between the state and what was emitted so far, kept by every step
that answers one of the labels, holds at the end of the run. -/
theorem run_induction {P : σ → List ω → Prop} {s u : σ} {before : List ω} {as : List α}
    {outs : List ω}
    (hstep : ∀ s outs a t out, a ∈ as → P s outs → S.step s a = some (t, out) →
      P t (outs ++ out))
    (hs : P s before) (hrun : S.run s as = some (u, outs)) : P u (before ++ outs) := by
  induction as generalizing s before outs with
  | nil =>
      cases hrun
      rwa [List.append_nil]
  | cons a as ih =>
      obtain ⟨t, out, rest, ha, hrest, rfl⟩ := S.run_cons.mp hrun
      rw [← List.append_assoc]
      have ht := hstep s before a t out (List.mem_cons_self ..) hs ha
      exact ih (fun s outs b t out hb => hstep s outs b t out (List.mem_cons_of_mem _ hb)) ht hrest

/-- Where related states take every step together and emit the same, so they do runs. -/
theorem related_run {R : σ → σ → Prop}
    (hstep : ∀ s s' a t out, R s s' → S.step s a = some (t, out) →
      ∃ t', S.step s' a = some (t', out) ∧ R t t')
    {s s' u : σ} {as : List α} {outs : List ω} (hs : R s s')
    (hrun : S.run s as = some (u, outs)) : ∃ u', S.run s' as = some (u', outs) ∧ R u u' := by
  induction as generalizing s s' outs with
  | nil =>
      cases hrun
      exact ⟨s', rfl, hs⟩
  | cons a as ih =>
      obtain ⟨t, out, rest, ha, hrest, rfl⟩ := S.run_cons.mp hrun
      obtain ⟨t', ha', ht⟩ := hstep s s' a t out hs ha
      obtain ⟨u', hrest', hu⟩ := ih ht hrest
      exact ⟨u', S.run_cons.mpr ⟨t', out, rest, ha', hrest', rfl⟩, hu⟩

/-- What every step appends of its label to an account of the state, the run appends of
its labels. -/
theorem accumulated_run {γ : Type*} (account : σ → List γ) (entries : α → List γ)
    (hstep : ∀ s a t out, I s → S.step s a = some (t, out) →
      I t ∧ account t = account s ++ entries a)
    {s u : σ} {as : List α} {outs : List ω} (hs : I s) (hrun : S.run s as = some (u, outs)) :
    account u = account s ++ as.flatMap entries := by
  induction as generalizing s outs with
  | nil =>
      cases hrun
      exact (List.append_nil _).symm
  | cons a as ih =>
      obtain ⟨t, out, rest, ha, hrest, rfl⟩ := S.run_cons.mp hrun
      obtain ⟨ht, haccount⟩ := hstep s a t out hs ha
      rw [ih ht hrest, haccount, List.flatMap_cons, List.append_assoc]

/-- Where every step brings a measure down, a run is no longer than what it starts at. -/
theorem length_run_le (μ : σ → ℕ)
    (hstep : ∀ s a t out, I s → S.step s a = some (t, out) → I t ∧ μ t < μ s)
    {s u : σ} {as : List α} {outs : List ω} (hs : I s) (hrun : S.run s as = some (u, outs)) :
    as.length + μ u ≤ μ s := by
  induction as generalizing s outs with
  | nil =>
      cases hrun
      exact Nat.le_of_eq (Nat.zero_add _)
  | cons a as ih =>
      obtain ⟨t, out, rest, ha, hrest, rfl⟩ := S.run_cons.mp hrun
      obtain ⟨ht, hlt⟩ := hstep s a t out hs ha
      have hle := ih ht hrest
      rw [List.length_cons]
      omega

/-- What only some labels raise, and by one, a run raises no more often than it has them. -/
theorem count_run_le (count : σ → ℕ) (p : α → Bool)
    (hstep : ∀ s a t out, S.step s a = some (t, out) → count t ≤ count s + if p a then 1 else 0)
    {s u : σ} {as : List α} {outs : List ω} (hrun : S.run s as = some (u, outs)) :
    count u ≤ count s + (as.filter p).length := by
  induction as generalizing s outs with
  | nil =>
      cases hrun
      exact Nat.le_refl _
  | cons a as ih =>
      obtain ⟨t, out, rest, ha, hrest, -⟩ := S.run_cons.mp hrun
      have hfirst := hstep s a t out ha
      have hle := ih hrest
      rw [List.filter_cons]
      split at hfirst
      next hp =>
          rw [if_pos hp, List.length_cons]
          omega
      next hp =>
          rw [if_neg hp]
          omega

/-- Along a stream of labels, a measure that every step before a final state
brings down leads to a final state. -/
theorem exists_run_of_decreasing (final : σ → Prop) (P : σ → List ω → Prop) (μ : σ → ℕ)
    (labels : ℕ → α) {s : σ}
    (hP : ∀ k t outs, S.run s ((List.range k).map labels) = some (t, outs) → P t outs)
    (hstep : ∀ k t outs, P t outs → ¬ final t →
      ∃ u out, S.step t (labels k) = some (u, out) ∧ (P u (outs ++ out) → μ u < μ t)) :
    ∃ k t outs, S.run s ((List.range k).map labels) = some (t, outs) ∧ final t ∧ P t outs := by
  have hgo : ∀ n k t outs, S.run s ((List.range k).map labels) = some (t, outs) → μ t = n →
      ∃ k t outs, S.run s ((List.range k).map labels) = some (t, outs) ∧ final t ∧ P t outs := by
    intro n
    induction n using Nat.strongRecOn with
    | ind n ih =>
        intro k t outs hrun hμ
        by_cases hfinal : final t
        · exact ⟨k, t, outs, hrun, hfinal, hP k t outs hrun⟩
        · obtain ⟨u, out, hu, hlt⟩ := hstep k t outs (hP k t outs hrun) hfinal
          have hnext := run_range_succ hrun hu
          have hdec := hlt (hP _ _ _ hnext)
          exact ih (μ u) (by omega) (k + 1) u (outs ++ out) hnext rfl
  exact hgo (μ s) 0 s [] rfl rfl

/-- An invariant that a step keeps when the step meets `P` holds along every
run whose steps all meet `P`. -/
theorem allStates_of_allSteps {P : σ → α → Prop}
    (hstep : ∀ s a t out, I s → P s a → S.step s a = some (t, out) → I t)
    {s : σ} {as : List α} (hs : I s) (hP : S.AllSteps P s as) : S.AllStates I s as := by
  induction as generalizing s with
  | nil => exact hs
  | cons a as ih =>
      refine ⟨hs, fun t out ha => ?_⟩
      obtain ⟨hPs, hrest⟩ := hP t out ha
      exact ih (hstep s a t out hs hPs ha) hrest

theorem allStates_of_invariant
    (hstep : ∀ s a t out, I s → S.step s a = some (t, out) → I t)
    {s : σ} {as : List α} (hs : I s) : S.AllStates I s as := by
  induction as generalizing s with
  | nil => exact hs
  | cons a as ih => exact ⟨hs, fun t out ha => ih (hstep s a t out hs ha)⟩

/-- Where, under `I`, a step meets `P` exactly when it meets `Q`, a run meets
`P` throughout exactly when it meets `Q` throughout. -/
theorem allSteps_congr {P Q : σ → α → Prop}
    (hstep : ∀ s a t out, I s → S.step s a = some (t, out) → I t)
    (hiff : ∀ s a t out, I s → S.step s a = some (t, out) → (P s a ↔ Q s a))
    {s : σ} {as : List α} (hs : I s) : S.AllSteps P s as ↔ S.AllSteps Q s as := by
  induction as generalizing s with
  | nil => exact Iff.rfl
  | cons a as ih =>
      apply forall_congr'
      intro t
      apply forall_congr'
      intro out
      apply imp_congr_right
      intro ha
      exact and_congr (hiff s a t out hs ha) (ih (hstep s a t out hs ha))

/-- Where a step from a good state ends in a good state exactly when it meets
`Q`, the run visits good states only exactly when all its steps meet `Q`. -/
theorem allStates_iff_allSteps {G : σ → Prop} {Q : σ → α → Prop}
    (hstep : ∀ s a t out, I s → G s → S.step s a = some (t, out) → I t)
    (hiff : ∀ s a t out, I s → G s → S.step s a = some (t, out) → (G t ↔ Q s a))
    {s : σ} {as : List α} (hs : I s) (hG : G s) :
    S.AllStates G s as ↔ S.AllSteps Q s as := by
  induction as generalizing s with
  | nil => exact ⟨fun _ => trivial, fun _ => hG⟩
  | cons a as ih =>
      constructor
      · rintro ⟨_, hrest⟩ t out ha
        have hGt : G t := by
          cases as with
          | nil => exact hrest t out ha
          | cons b bs => exact (hrest t out ha).1
        have ht : I t := hstep s a t out hs hG ha
        exact ⟨(hiff s a t out hs hG ha).mp hGt, (ih ht hGt).mp (hrest t out ha)⟩
      · intro hQ
        refine ⟨hG, fun t out ha => ?_⟩
        obtain ⟨hQs, hrest⟩ := hQ t out ha
        have hGt : G t := (hiff s a t out hs hG ha).mpr hQs
        exact (ih (hstep s a t out hs hG ha) hGt).mpr hrest

theorem AllStates.mono {P Q : σ → Prop} (hPQ : ∀ s, P s → Q s) {s : σ} {as : List α}
    (h : S.AllStates P s as) : S.AllStates Q s as := by
  induction as generalizing s with
  | nil => exact hPQ s h
  | cons a as ih => exact ⟨hPQ s h.1, fun t out ha => ih (h.2 t out ha)⟩

theorem AllStates.last {P : σ → Prop} {s u : σ} {as : List α} {outs : List ω}
    (h : S.AllStates P s as) (hrun : S.run s as = some (u, outs)) : P u := by
  induction as generalizing s outs with
  | nil =>
      cases hrun
      exact h
  | cons a as ih =>
      obtain ⟨t, out, rest, ha, hrest, rfl⟩ := S.run_cons.mp hrun
      exact ih (h.2 t out ha) hrest

/-- What held before every step that it holds after has held all along a run at whose end
it holds. -/
theorem AllStates.of_last {P : σ → Prop}
    (hback : ∀ s a t out, S.step s a = some (t, out) → P t → P s)
    {s u : σ} {as : List α} {outs : List ω} (hrun : S.run s as = some (u, outs)) (hu : P u) :
    S.AllStates P s as := by
  induction as generalizing s outs with
  | nil =>
      cases hrun
      exact hu
  | cons a as ih =>
      obtain ⟨t, out, rest, ha, hrest, rfl⟩ := S.run_cons.mp hrun
      have ht : S.AllStates P t as := ih hrest
      have hPt : P t := by
        cases as with
        | nil => exact ht
        | cons b bs => exact ht.1
      refine ⟨hback s a t out ha hPt, ?_⟩
      intro t' out' ha'
      rw [ha] at ha'
      cases ha'
      exact ht

end Rules

end System

end Lour.Lib
