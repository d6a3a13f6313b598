import Lour.Lib.System
/-!
# Parties that share a state

Each label lets one party take its next step on the shared state.
-/

namespace Lour.Lib

variable {σ ℓ ε : Type*}

structure Shared (σ ℓ : Type*) where
  state : σ
  parties : List ℓ

/-- The runs are the interleavings of the parties' steps. -/
def interleaving (move : σ → ℓ → ε → Option (σ × ℓ)) : System (Shared σ ℓ) (ℕ × ε) Empty :=
  ⟨fun shared (i, e) =>
    shared.parties[i]?.bind fun party =>
      (move shared.state party e).map fun (state, party) =>
        (⟨state, shared.parties.set i party⟩, [])⟩

theorem getElem?_moved {parties : List ℓ} {i : ℕ} {party party' : ℓ}
    (hparty : parties[i]? = some party) : (parties.set i party')[i]? = some party' := by
  obtain ⟨hlt, -⟩ := List.getElem?_eq_some_iff.mp hparty
  exact List.getElem?_set_self hlt

/-- A party among the others. -/
theorem exists_split {parties : List ℓ} {i : ℕ} {party : ℓ} (hparty : parties[i]? = some party) :
    ∃ left right, parties = left ++ party :: right ∧ left.length = i ∧
      ∀ party', parties.set i party' = left ++ party' :: right := by
  obtain ⟨hlt, hget⟩ := List.getElem?_eq_some_iff.mp hparty
  have hlength : (parties.take i).length = i := by
    rw [List.length_take]
    omega
  have hsplit : parties = parties.take i ++ party :: parties.drop (i + 1) := by
    rw [← hget, ← List.drop_eq_getElem_cons hlt, List.take_append_drop]
  refine ⟨parties.take i, parties.drop (i + 1), hsplit, hlength, ?_⟩
  intro party'
  rw [List.set_eq_take_append_cons_drop, if_pos hlt]

/-- A step changes the shared state and the one party that takes it. -/
theorem interleaving_step {move : σ → ℓ → ε → Option (σ × ℓ)} {shared after : Shared σ ℓ}
    {i : ℕ} {e : ε} {out : List Empty}
    (hstep : (interleaving move).step shared (i, e) = some (after, out)) :
    ∃ left party right state party', shared.parties = left ++ party :: right ∧
      left.length = i ∧ move shared.state party e = some (state, party') ∧
      after = ⟨state, left ++ party' :: right⟩ := by
  obtain ⟨party, hparty, hmove⟩ := Option.bind_eq_some_iff.mp hstep
  obtain ⟨⟨state, party'⟩, hmoved, hafter⟩ := Option.map_eq_some_iff.mp hmove
  obtain ⟨left, right, hparties, hlength, hset⟩ := exists_split hparty
  refine ⟨left, party, right, state, party', hparties, hlength, hmoved, ?_⟩
  rw [← hset]
  exact (Prod.mk.inj hafter).1.symm

theorem interleaving_step_iff {move : σ → ℓ → ε → Option (σ × ℓ)} {shared after : Shared σ ℓ}
    {i : ℕ} {e : ε} {out : List Empty} :
    (interleaving move).step shared (i, e) = some (after, out) ↔
      ∃ party state party', shared.parties[i]? = some party ∧
        move shared.state party e = some (state, party') ∧
        after = ⟨state, shared.parties.set i party'⟩ ∧ out = [] := by
  simp only [interleaving, Option.bind_eq_some_iff, Option.map_eq_some_iff, Prod.exists,
    Prod.mk.injEq]
  constructor
  · rintro ⟨party, hparty, state, party', hmove, rfl, rfl⟩
    exact ⟨party, state, party', hparty, hmove, rfl, rfl⟩
  · rintro ⟨party, state, party', hparty, hmove, rfl, rfl⟩
    exact ⟨party, hparty, state, party', hmove, rfl, rfl⟩

/-- A trait that the moved party keeps is kept all along the parties. -/
theorem map_set_of_eq {κ : Type*} {trait : ℓ → κ} {parties : List ℓ} {i : ℕ} {party party' : ℓ}
    (hparty : parties[i]? = some party) (htrait : trait party' = trait party) :
    (parties.set i party').map trait = parties.map trait := by
  rw [List.map_set, htrait]
  apply List.ext_getElem?
  intro j
  rw [List.getElem?_set]
  split
  next hij =>
    subst hij
    rw [List.getElem?_map, hparty, Option.map_some, if_pos]
    obtain ⟨hlt, -⟩ := List.getElem?_eq_some_iff.mp hparty
    rwa [List.length_map]
  next => rfl

theorem interleaving_map {κ : Type*} {trait : ℓ → κ} {move : σ → ℓ → ε → Option (σ × ℓ)}
    (hmove : ∀ s p e s' p', move s p e = some (s', p') → trait p' = trait p)
    {shared after : Shared σ ℓ} {labels : List (ℕ × ε)} {out : List Empty}
    (hrun : (interleaving move).run shared labels = some (after, out)) :
    after.parties.map trait = shared.parties.map trait := by
  let I : Shared σ ℓ → Prop := fun other => other.parties.map trait = shared.parties.map trait
  apply System.invariant_run _ (show I shared from rfl) hrun
  intro s ⟨i, e⟩ t out hs hstep
  obtain ⟨party, state, party', hparty, hmoved, rfl, -⟩ := interleaving_step_iff.mp hstep
  exact (map_set_of_eq hparty (hmove _ _ _ _ _ hmoved)).trans hs

theorem getElem?_split {parties left right : List ℓ} {party : ℓ}
    (hparties : parties = left ++ party :: right) : parties[left.length]? = some party := by
  rw [hparties, List.getElem?_append_right (Nat.le_refl _), Nat.sub_self]
  rfl

/-- A party that can move can take its step. -/
theorem interleaving_enabled {move : σ → ℓ → ε → Option (σ × ℓ)} {shared : Shared σ ℓ}
    {left right : List ℓ} {party party' : ℓ} {e : ε} {state : σ}
    (hparties : shared.parties = left ++ party :: right)
    (hmove : move shared.state party e = some (state, party')) :
    ∃ next, (interleaving move).step shared (left.length, e) = some next := by
  have hget := getElem?_split hparties
  refine ⟨(⟨state, shared.parties.set left.length party'⟩, []), ?_⟩
  simp only [interleaving, hget, Option.bind_some, hmove, Option.map_some]

/-- Where every party is given a share of the property, one party's step shows only
in its own. -/
theorem mem_moved {left right : List ℓ} {party party' other : ℓ}
    (hother : other ∈ left ++ party :: right) :
    other = party ∨ other ∈ left ++ party' :: right := by
  rw [List.mem_append, List.mem_cons] at hother ⊢
  rcases hother with hleft | heq | hright
  · exact .inr (.inl hleft)
  · exact .inl heq
  · exact .inr (.inr (.inr hright))

/-- A property of one party that its moves keep is one of every party all along. -/
theorem interleaving_each {I : ℓ → Prop} {move : σ → ℓ → ε → Option (σ × ℓ)}
    (hmove : ∀ s p e s' p', I p → move s p e = some (s', p') → I p')
    {shared after : Shared σ ℓ} {labels : List (ℕ × ε)} {out : List Empty}
    (hstart : ∀ party ∈ shared.parties, I party)
    (hrun : (interleaving move).run shared labels = some (after, out)) :
    ∀ party ∈ after.parties, I party := by
  let J : Shared σ ℓ → Prop := fun shared => ∀ party ∈ shared.parties, I party
  apply System.invariant_run _ (show J shared from hstart) hrun
  intro s ⟨i, e⟩ t out hs hstep
  obtain ⟨left, party, right, state, party', hparties, -, hmoved, rfl⟩ := interleaving_step hstep
  have hself : I party := by
    apply hs
    rw [hparties]
    exact List.mem_append_right _ (List.mem_cons_self ..)
  intro other hother
  rcases mem_moved hother with rfl | hold
  · exact hmove _ _ _ _ _ hself hmoved
  · apply hs
    rw [hparties]
    exact hold

/-- How many parties are of a kind, where one of them moves. -/
theorem length_filter_moved (p : ℓ → Bool) (left right : List ℓ) (party : ℓ) :
    ((left ++ party :: right).filter p).length =
      ((left ++ right).filter p).length + if p party then 1 else 0 := by
  rw [List.filter_append, List.filter_cons, List.filter_append, List.length_append,
    List.length_append]
  split
  · rw [List.length_cons]
    omega
  · omega

/-- What the parties still have to do, each measured by `rank`. -/
def remaining (rank : ℓ → ℕ) : List ℓ → ℕ
  | [] => 0
  | party :: parties => rank party + remaining rank parties

theorem remaining_moved (rank : ℓ → ℕ) (left right : List ℓ) (party : ℓ) :
    remaining rank (left ++ party :: right) = remaining rank (left ++ right) + rank party := by
  induction left with
  | nil => exact Nat.add_comm _ _
  | cons first left ih =>
      rw [List.cons_append, List.cons_append, remaining, remaining, ih, Nat.add_assoc]

theorem remaining_le {rank : ℓ → ℕ} {bound : ℕ} (parties : List ℓ)
    (hbound : ∀ party ∈ parties, rank party ≤ bound) :
    remaining rank parties ≤ bound * parties.length := by
  induction parties with
  | nil => exact Nat.zero_le _
  | cons party parties ih =>
      have hfirst := hbound party (List.mem_cons_self ..)
      have hrest := ih fun other hother => hbound other (List.mem_cons_of_mem _ hother)
      rw [remaining, List.length_cons, Nat.mul_succ]
      omega

/-- Where every step of a party brings its rank down, the parties take no more steps
together than their ranks allow. -/
theorem interleaving_length_le {move : σ → ℓ → ε → Option (σ × ℓ)} {rank : ℓ → ℕ}
    (hmove : ∀ s p e s' p', move s p e = some (s', p') → rank p' < rank p)
    {shared after : Shared σ ℓ} {labels : List (ℕ × ε)} {out : List Empty}
    (hrun : (interleaving move).run shared labels = some (after, out)) :
    labels.length + remaining rank after.parties ≤ remaining rank shared.parties := by
  refine System.length_run_le (I := fun _ => True)
    (fun shared => remaining rank shared.parties) ?_ trivial hrun
  intro s ⟨i, e⟩ t out _ hstep
  obtain ⟨left, party, right, state, party', hparties, -, hmoved, rfl⟩ := interleaving_step hstep
  have hlt := hmove _ _ _ _ _ hmoved
  refine ⟨trivial, ?_⟩
  show remaining rank (left ++ party' :: right) < remaining rank s.parties
  rw [hparties, remaining_moved, remaining_moved]
  omega

/-- What the rank allows one party, whatever the others do. -/
theorem interleaving_own_le {move : σ → ℓ → ε → Option (σ × ℓ)} {rank : ℓ → ℕ}
    (hmove : ∀ s p e s' p', move s p e = some (s', p') → rank p' < rank p)
    {shared after : Shared σ ℓ} {labels : List (ℕ × ε)} {out : List Empty}
    (hrun : (interleaving move).run shared labels = some (after, out)) (i : ℕ) :
    (labels.filter fun label => label.1 == i).length + after.parties[i]?.elim 0 rank ≤
      shared.parties[i]?.elim 0 rank := by
  induction labels generalizing shared out with
  | nil =>
      cases hrun
      exact Nat.le_of_eq (Nat.zero_add _)
  | cons label labels ih =>
      obtain ⟨mid, first, rest, hstep, hrest, -⟩ := (interleaving move).run_cons.mp hrun
      have hle := ih hrest
      obtain ⟨j, e⟩ := label
      obtain ⟨party, state, party', hparty, hmoved, rfl, -⟩ := interleaving_step_iff.mp hstep
      rw [List.getElem?_set] at hle
      by_cases hij : j = i
      · subst hij
        have hlt := hmove _ _ _ _ _ hmoved
        obtain ⟨hlength, -⟩ := List.getElem?_eq_some_iff.mp hparty
        rw [if_pos rfl, if_pos hlength, Option.elim_some] at hle
        rw [List.filter_cons_of_pos (by simp), List.length_cons, hparty, Option.elim_some]
        omega
      · rw [if_neg hij] at hle
        rw [List.filter_cons_of_neg (by simpa using hij)]
        exact hle

/-- The interleavings of parties that have nothing to choose; what a step emits is
marked with the party. -/
def emitting {ω : Type*} (move : σ → ℓ → Option (σ × ℓ × List ω)) :
    System (Shared σ ℓ) ℕ (ℕ × ω) :=
  ⟨fun shared i =>
    shared.parties[i]?.bind fun party =>
      (move shared.state party).map fun (state, party, out) =>
        (⟨state, shared.parties.set i party⟩, out.map fun o => (i, o))⟩

theorem emitting_step_iff {ω : Type*} {move : σ → ℓ → Option (σ × ℓ × List ω)}
    {shared after : Shared σ ℓ} {i : ℕ} {out : List (ℕ × ω)} :
    (emitting move).step shared i = some (after, out) ↔
      ∃ party state party' emitted, shared.parties[i]? = some party ∧
        move shared.state party = some (state, party', emitted) ∧
        after = ⟨state, shared.parties.set i party'⟩ ∧ out = emitted.map fun o => (i, o) := by
  simp only [emitting, Option.bind_eq_some_iff, Option.map_eq_some_iff, Prod.exists,
    Prod.mk.injEq]
  constructor
  · rintro ⟨party, hparty, state, party', emitted, hmove, rfl, rfl⟩
    exact ⟨party, state, party', emitted, hparty, hmove, rfl, rfl⟩
  · rintro ⟨party, state, party', emitted, hparty, hmove, rfl, rfl⟩
    exact ⟨party, hparty, state, party', emitted, hmove, rfl, rfl⟩

section Emitting

variable {ω : Type*} {move : σ → ℓ → Option (σ × ℓ × List ω)} {shared after : Shared σ ℓ}

theorem emitting_step {i : ℕ} {out : List (ℕ × ω)}
    (hstep : (emitting move).step shared i = some (after, out)) :
    ∃ left party right state party' emitted, shared.parties = left ++ party :: right ∧
      left.length = i ∧ move shared.state party = some (state, party', emitted) ∧
      after = ⟨state, left ++ party' :: right⟩ ∧ out = emitted.map fun o => (i, o) := by
  obtain ⟨party, state, party', emitted, hparty, hmove, hafter, hout⟩ :=
    emitting_step_iff.mp hstep
  obtain ⟨left, right, hparties, hlength, hset⟩ := exists_split hparty
  refine ⟨left, party, right, state, party', emitted, hparties, hlength, hmove, ?_, hout⟩
  rw [← hset]
  exact hafter

theorem emitting_enabled {left right : List ℓ} {party party' : ℓ} {state : σ} {emitted : List ω}
    (hparties : shared.parties = left ++ party :: right)
    (hmove : move shared.state party = some (state, party', emitted)) :
    ∃ next, (emitting move).step shared left.length = some next :=
  ⟨_, emitting_step_iff.mpr
    ⟨party, state, party', emitted, getElem?_split hparties, hmove, rfl, rfl⟩⟩

theorem emitting_length_le {rank : ℓ → ℕ}
    (hmove : ∀ s p s' p' out, move s p = some (s', p', out) → rank p' < rank p)
    {labels : List ℕ} {outs : List (ℕ × ω)}
    (hrun : (emitting move).run shared labels = some (after, outs)) :
    labels.length + remaining rank after.parties ≤ remaining rank shared.parties := by
  refine System.length_run_le (I := fun _ => True)
    (fun shared => remaining rank shared.parties) ?_ trivial hrun
  intro s i t out _ hstep
  obtain ⟨left, party, right, state, party', emitted, hparties, -, hmoved, rfl, -⟩ :=
    emitting_step hstep
  have hlt := hmove _ _ _ _ _ hmoved
  refine ⟨trivial, ?_⟩
  show remaining rank (left ++ party' :: right) < remaining rank s.parties
  rw [hparties, remaining_moved, remaining_moved]
  omega

end Emitting

/-- The interleavings of parties whose steps leave something open, which the label
chooses; what a step emits is marked with the party. -/
def choosing {ω : Type*} (move : σ → ℓ → ε → Option (σ × ℓ × List ω)) :
    System (Shared σ ℓ) (ℕ × ε) (ℕ × ω) :=
  ⟨fun shared (i, e) => (emitting fun state party => move state party e).step shared i⟩

theorem choosing_step_iff {ω : Type*} {move : σ → ℓ → ε → Option (σ × ℓ × List ω)}
    {shared after : Shared σ ℓ} {i : ℕ} {e : ε} {out : List (ℕ × ω)} :
    (choosing move).step shared (i, e) = some (after, out) ↔
      ∃ party state party' emitted, shared.parties[i]? = some party ∧
        move shared.state party e = some (state, party', emitted) ∧
        after = ⟨state, shared.parties.set i party'⟩ ∧ out = emitted.map fun o => (i, o) :=
  @emitting_step_iff σ ℓ ω (fun state party => move state party e) shared after i out

theorem mem_moved_self (left right : List ℓ) (party : ℓ) : party ∈ left ++ party :: right :=
  List.mem_append_right _ (List.mem_cons_self ..)

end Lour.Lib
