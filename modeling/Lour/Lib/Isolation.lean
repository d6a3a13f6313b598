import Lour.Lib.Interleaving
/-!
# Parties that keep to a region of the shared state

`see k s` is what region `k` of the state `s` holds.  Where every party reads and changes
its own region only, the parties of one region do in any interleaving what they would do
without the others, whatever the other regions hold.
-/

namespace Lour.Lib

variable {σ ℓ ε κ υ : Type*}

/-- Every party keeps to the region it belongs to. -/
structure Regional (move : σ → ℓ → ε → Option (σ × ℓ)) (region : ℓ → κ) (see : κ → σ → υ) :
    Prop where
  stays : ∀ s p e s' p', move s p e = some (s', p') → region p' = region p
  frame : ∀ s p e s' p', move s p e = some (s', p') → ∀ k, k ≠ region p → see k s' = see k s
  agrees : ∀ s t p e s' p', see (region p) s = see (region p) t →
    move s p e = some (s', p') →
    ∃ t', move t p e = some (t', p') ∧ see (region p) s' = see (region p) t'

/-- What region `k` shows and the parties that belong to it are the same in both. -/
structure SameFor (region : ℓ → κ) (see : κ → σ → υ) (k : κ) (x y : Shared σ ℓ) : Prop where
  seen : see k x.state = see k y.state
  regions : x.parties.map region = y.parties.map region
  own : ∀ (i : ℕ) (p : ℓ), region p = k → (x.parties[i]? = some p ↔ y.parties[i]? = some p)

/-- The label is one of a party of region `k`. -/
def ofRegion [DecidableEq κ] (k : κ) (regions : List κ) (label : ℕ × ε) : Bool :=
  regions[label.1]?.any fun region => decide (region = k)

theorem ofRegion_iff [DecidableEq κ] {k : κ} {regions : List κ} {label : ℕ × ε} :
    ofRegion k regions label = true ↔ regions[label.1]? = some k := by
  simp [ofRegion, Option.any_eq_true]

section Steps

variable {move : σ → ℓ → ε → Option (σ × ℓ)} {region : ℓ → κ} {see : κ → σ → υ} {k : κ}
  {x x' y : Shared σ ℓ} {i : ℕ} {e : ε} {out : List Empty}

/-- Steps move no party to another region. -/
theorem Regional.regions_step (h : Regional move region see)
    (hstep : (interleaving move).step x (i, e) = some (x', out)) :
    x'.parties.map region = x.parties.map region := by
  obtain ⟨party, state, party', hparty, hmove, rfl, -⟩ := interleaving_step_iff.mp hstep
  exact map_set_of_eq hparty (h.stays _ _ _ _ _ hmove)

/-- A step of another region changes nothing for region `k`. -/
theorem Regional.step_other (h : Regional move region see) (hsame : SameFor region see k x y)
    (hstep : (interleaving move).step x (i, e) = some (x', out))
    (hother : (x.parties.map region)[i]? ≠ some k) : SameFor region see k x' y := by
  obtain ⟨party, state, party', hparty, hmove, rfl, -⟩ := interleaving_step_iff.mp hstep
  have hstays := h.stays _ _ _ _ _ hmove
  have hk : k ≠ region party := by
    intro hk
    apply hother
    rw [List.getElem?_map, hparty, hk]
    rfl
  refine ⟨(h.frame _ _ _ _ _ hmove k hk).trans hsame.seen, ?_, ?_⟩
  · exact (map_set_of_eq hparty hstays).trans hsame.regions
  · intro j p hp
    rw [← hsame.own j p hp]
    show (x.parties.set i party')[j]? = some p ↔ x.parties[j]? = some p
    by_cases hij : i = j
    · -- neither the party that moved nor what it became is of region `k`
      subst hij
      rw [getElem?_moved hparty, hparty]
      constructor
      · intro heq
        rw [← hp, ← Option.some.inj heq, hstays] at hk
        exact absurd rfl hk
      · intro heq
        rw [← hp, ← Option.some.inj heq] at hk
        exact absurd rfl hk
    · rw [List.getElem?_set_ne hij]

/-- A step of region `k` is taken alike in both. -/
theorem Regional.step_own (h : Regional move region see) (hsame : SameFor region see k x y)
    (hstep : (interleaving move).step x (i, e) = some (x', out))
    (hown : (x.parties.map region)[i]? = some k) :
    ∃ y', (interleaving move).step y (i, e) = some (y', []) ∧ SameFor region see k x' y' := by
  obtain ⟨party, state, party', hparty, hmove, rfl, -⟩ := interleaving_step_iff.mp hstep
  have hk : region party = k := by
    rw [List.getElem?_map, hparty] at hown
    exact Option.some.inj hown
  subst hk
  have hy : y.parties[i]? = some party := (hsame.own i party rfl).mp hparty
  obtain ⟨state', hmove', hseen⟩ := h.agrees _ y.state _ _ _ _ hsame.seen hmove
  have hstays := h.stays _ _ _ _ _ hmove
  refine ⟨⟨state', y.parties.set i party'⟩,
    interleaving_step_iff.mpr ⟨party, state', party', hy, hmove', rfl, rfl⟩, hseen, ?_, ?_⟩
  · show (x.parties.set i party').map region = (y.parties.set i party').map region
    rw [map_set_of_eq hparty hstays, map_set_of_eq hy hstays, hsame.regions]
  · intro j p hp
    show (x.parties.set i party')[j]? = some p ↔ (y.parties.set i party')[j]? = some p
    by_cases hij : i = j
    · subst hij
      obtain ⟨hx, -⟩ := List.getElem?_eq_some_iff.mp hparty
      obtain ⟨hy, -⟩ := List.getElem?_eq_some_iff.mp hy
      rw [List.getElem?_set_self hx, List.getElem?_set_self hy]
    · rw [List.getElem?_set_ne hij, List.getElem?_set_ne hij]
      exact hsame.own j p hp

end Steps

/-- The steps of region `k`, taken by themselves where region `k` finds the same, do the
same. -/
theorem Regional.run [DecidableEq κ] {move : σ → ℓ → ε → Option (σ × ℓ)} {region : ℓ → κ}
    {see : κ → σ → υ} (h : Regional move region see) {k : κ} {x x' y : Shared σ ℓ}
    {labels : List (ℕ × ε)} {out : List Empty} (hsame : SameFor region see k x y)
    (hrun : (interleaving move).run x labels = some (x', out)) :
    ∃ y', (interleaving move).run y (labels.filter (ofRegion k (x.parties.map region))) =
        some (y', []) ∧ SameFor region see k x' y' := by
  induction labels generalizing x y out with
  | nil =>
      cases hrun
      exact ⟨y, rfl, hsame⟩
  | cons label labels ih =>
      obtain ⟨i, e⟩ := label
      obtain ⟨t, first, rest, hstep, hrest, rfl⟩ := (interleaving move).run_cons.mp hrun
      rw [← h.regions_step hstep]
      by_cases hown : (x.parties.map region)[i]? = some k
      · obtain ⟨y₁, hstep', hsame'⟩ := h.step_own hsame hstep hown
        obtain ⟨y', hrun', hend⟩ := ih hsame' hrest
        have hlabel : ofRegion k (t.parties.map region) (i, e) = true := by
          rw [h.regions_step hstep]
          exact ofRegion_iff.mpr hown
        refine ⟨y', ?_, hend⟩
        rw [List.filter_cons_of_pos hlabel]
        exact (interleaving move).run_cons.mpr ⟨y₁, [], [], hstep', hrun', rfl⟩
      · obtain ⟨y', hrun', hend⟩ := ih (h.step_other hsame hstep hown) hrest
        have hlabel : ¬ ofRegion k (t.parties.map region) (i, e) = true := by
          rw [h.regions_step hstep, ofRegion_iff]
          exact hown
        refine ⟨y', ?_, hend⟩
        rw [List.filter_cons_of_neg hlabel]
        exact hrun'

/-- Where the labels that fail `p` leave the state alone, and the outputs that pass `q` are
those of the others, a run goes as if they had not been there. -/
theorem System.filter_run {α ω : Type*} {S : System σ α ω} {p : α → Bool} {q : ω → Bool}
    (hpass : ∀ s a t out, S.step s a = some (t, out) → p a = true → out.filter q = out)
    (hfail : ∀ s a t out, S.step s a = some (t, out) → p a = false → t = s ∧ out.filter q = [])
    {s u : σ} {as : List α} {outs : List ω} (hrun : S.run s as = some (u, outs)) :
    S.run s (as.filter p) = some (u, outs.filter q) := by
  induction as generalizing s outs with
  | nil =>
      cases hrun
      rfl
  | cons a as ih =>
      obtain ⟨t, out, rest, hstep, hrest, rfl⟩ := S.run_cons.mp hrun
      rw [List.filter_append]
      cases ha : p a with
      | true =>
          rw [List.filter_cons_of_pos ha, hpass s a t out hstep ha]
          exact S.run_cons.mpr ⟨t, out, _, hstep, ih hrest, rfl⟩
      | false =>
          obtain ⟨rfl, hnone⟩ := hfail s a t out hstep ha
          rw [List.filter_cons_of_neg (by simp [ha]), hnone, List.nil_append]
          exact ih hrest

end Lour.Lib
