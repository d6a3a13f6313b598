import Lour.Lib.Interleaving
/-!
# A lock among parties that share a state

What a lock guards belongs to nobody while the lock is free and to the one party that
holds it otherwise.  A step keeps this when it is one of four: a bystander's, which
neither takes the lock nor touches what it guards, and the three a holder takes.
-/

namespace Lour.Lib

variable {σ ℓ : Type*}

structure Lock (σ ℓ : Type*) where
  locked : σ → Bool
  holds : ℓ → Bool

namespace Lock

variable (lock : Lock σ ℓ)

/-- The lock is held by one party exactly while it is locked; `Free` is what is known of
the state meanwhile, and `Held` what the holder knows of it. -/
structure Owned (Free : σ → Prop) (Held : σ → ℓ → Prop) (shared : Shared σ ℓ) : Prop where
  one : (shared.parties.filter lock.holds).length =
    if lock.locked shared.state then 1 else 0
  free : lock.locked shared.state = false → Free shared.state
  held : ∀ party ∈ shared.parties, lock.holds party → Held shared.state party

/-- What a party's step may do with the lock. -/
inductive Keeps (Free : σ → Prop) (Held : σ → ℓ → Prop) (Free' : σ → Prop)
    (Held' : σ → ℓ → Prop) (s : σ) (p : ℓ) (s' : σ) (p' : ℓ) : Prop
  | bystander (hp : lock.holds p = false) (hp' : lock.holds p' = false)
      (hlocked : lock.locked s' = lock.locked s) (hfree : Free s → Free' s')
      (hheld : ∀ q, lock.holds q → Held s q → Held' s' q)
  | acquires (hp : lock.holds p = false) (hp' : lock.holds p' = true)
      (hs : lock.locked s = false) (hs' : lock.locked s' = true) (hheld : Free s → Held' s' p')
  | works (hp : lock.holds p = true) (hp' : lock.holds p' = true)
      (hlocked : lock.locked s' = lock.locked s) (hheld : Held s p → Held' s' p')
  | releases (hp : lock.holds p = true) (hp' : lock.holds p' = false)
      (hs' : lock.locked s' = false) (hfree : Held s p → Free' s')

variable {lock} {Free Free' : σ → Prop} {Held Held' : σ → ℓ → Prop} {s s' : σ}
  {left right : List ℓ} {p p' : ℓ}

theorem Owned.initial {parties : List ℓ} (hlocked : lock.locked s = false)
    (hparties : ∀ party ∈ parties, lock.holds party = false) (hfree : Free s) :
    lock.Owned Free Held ⟨s, parties⟩ := by
  have hnone : parties.filter lock.holds = [] := by
    rw [List.filter_eq_nil_iff]
    intro party hparty hholds
    rw [hparties party hparty] at hholds
    exact Bool.noConfusion hholds
  constructor
  · show (parties.filter lock.holds).length = if lock.locked s then 1 else 0
    rw [hnone, hlocked]
    rfl
  · intro _
    exact hfree
  · intro party hparty hholds
    rw [hparties party hparty] at hholds
    exact Bool.noConfusion hholds

theorem length_holders (q : ℓ) :
    ((left ++ q :: right).filter lock.holds).length =
      ((left ++ right).filter lock.holds).length + if lock.holds q then 1 else 0 :=
  length_filter_moved lock.holds left right q

/-- While nobody else can hold the lock, nobody else does. -/
theorem no_holder {parties : List ℓ} (hnone : (parties.filter lock.holds).length = 0) :
    ∀ q ∈ parties, lock.holds q = false := by
  intro q hq
  by_contra hholds
  have hmem : q ∈ parties.filter lock.holds :=
    List.mem_filter.mpr ⟨hq, by simpa using hholds⟩
  rw [List.length_eq_zero_iff.mp hnone] at hmem
  exact List.not_mem_nil hmem

namespace Owned

/-- Where a party holds the lock, it is locked and no other party does. -/
theorem alone (h : lock.Owned Free Held ⟨s, left ++ p :: right⟩) (hp : lock.holds p = true) :
    lock.locked s = true ∧ ((left ++ right).filter lock.holds).length = 0 := by
  have hone : ((left ++ p :: right).filter lock.holds).length =
      if lock.locked s then 1 else 0 := h.one
  rw [length_holders, hp] at hone
  cases hlocked : lock.locked s with
  | false =>
      simp only [hlocked, if_true, Bool.false_eq_true, if_false] at hone
      omega
  | true =>
      simp only [hlocked, if_true] at hone
      exact ⟨rfl, by omega⟩

theorem held_of_holds (h : lock.Owned Free Held ⟨s, left ++ p :: right⟩)
    (hp : lock.holds p = true) : Held s p :=
  h.held p (mem_moved_self left right p) hp

/-- The same, of a party that has just taken a step. -/
theorem of_alone (hnone : ((left ++ right).filter lock.holds).length = 0)
    (hone : (if lock.holds p' then 1 else 0) = if lock.locked s' then 1 else 0)
    (hfree : lock.locked s' = false → Free' s') (hheld : lock.holds p' → Held' s' p') :
    lock.Owned Free' Held' ⟨s', left ++ p' :: right⟩ := by
  constructor
  · show ((left ++ p' :: right).filter lock.holds).length = if lock.locked s' then 1 else 0
    rw [length_holders, hnone, Nat.zero_add]
    exact hone
  · exact hfree
  · intro q hq hholds
    have hcases : q = p' ∨ q ∈ left ++ right := by
      rw [List.mem_append, List.mem_cons] at hq
      rw [List.mem_append]
      tauto
    rcases hcases with heq | hother
    · rw [heq] at hholds ⊢
      exact hheld hholds
    · rw [no_holder hnone q hother] at hholds
      exact Bool.noConfusion hholds

theorem step (h : lock.Owned Free Held ⟨s, left ++ p :: right⟩)
    (hkeeps : lock.Keeps Free Held Free' Held' s p s' p') :
    lock.Owned Free' Held' ⟨s', left ++ p' :: right⟩ := by
  have hone : ((left ++ p :: right).filter lock.holds).length =
      if lock.locked s then 1 else 0 := h.one
  cases hkeeps with
  | bystander hp hp' hlocked hfree hheld =>
      constructor
      · show ((left ++ p' :: right).filter lock.holds).length = if lock.locked s' then 1 else 0
        rw [length_holders, hp', hlocked, ← hone, length_holders, hp]
      · intro hs'
        have hs : lock.locked s = false := hlocked ▸ hs'
        exact hfree (h.free hs)
      · intro q hq hholds
        have hcases : q = p' ∨ q ∈ left ++ p :: right := mem_moved hq
        rcases hcases with heq | hold
        · rw [heq, hp'] at hholds
          exact Bool.noConfusion hholds
        · exact hheld q hholds (h.held q hold hholds)
  | acquires hp hp' hs hs' hheld =>
      have hnone : ((left ++ right).filter lock.holds).length = 0 := by
        rw [length_holders, hp, hs] at hone
        simpa using hone
      apply of_alone hnone
      · rw [hp', hs']
      · intro hfree
        rw [hs'] at hfree
        exact Bool.noConfusion hfree
      · intro _
        exact hheld (h.free hs)
  | works hp hp' hlocked hheld =>
      obtain ⟨hs, hnone⟩ := h.alone hp
      apply of_alone hnone
      · rw [hp', hlocked, hs]
      · intro hfree
        rw [hlocked, hs] at hfree
        exact Bool.noConfusion hfree
      · intro _
        exact hheld (h.held_of_holds hp)
  | releases hp hp' hs' hfree =>
      obtain ⟨_, hnone⟩ := h.alone hp
      apply of_alone hnone
      · rw [hp', hs']
      · intro _
        exact hfree (h.held_of_holds hp)
      · intro hholds
        rw [hp'] at hholds
        exact Bool.noConfusion hholds

/-- A locked lock has a holder. -/
theorem exists_holder {shared : Shared σ ℓ} (h : lock.Owned Free Held shared)
    (hlocked : lock.locked shared.state = true) :
    ∃ party ∈ shared.parties, lock.holds party = true := by
  have hone := h.one
  rw [hlocked, if_pos rfl] at hone
  obtain ⟨party, hparty⟩ := List.length_eq_one_iff.mp hone
  have hmem : party ∈ shared.parties.filter lock.holds := by
    rw [hparty]
    exact List.mem_singleton_self party
  exact ⟨party, List.mem_filter.mp hmem⟩

end Owned

end Lock

end Lour.Lib
