import Mathlib.Data.List.Perm.Basic
import Lour.Lib.Interleaving
/-!
# A pool whose items are in the custody of parties

A party takes an item by adding it to the pool, and gives it back by its key.  What the
pool holds is then always what it held before and what the parties hold.
-/

namespace Lour.Lib

variable {σ ℓ ε ρ κ : Type*} [DecidableEq κ] {key : ρ → κ}

/-- What a move does to the pool and to what the party that moves holds. -/
inductive Handles (key : ρ → κ) (pool held : List ρ) : List ρ → List ρ → Prop where
  | keep : Handles key pool held pool held
  | take (item : ρ) (hfresh : ∀ other ∈ pool, key other ≠ key item) :
      Handles key pool held (pool ++ [item]) (held ++ [item])
  | give (item : ρ) (rest : List ρ) (hheld : held.Perm (item :: rest)) :
      Handles key pool held (pool.filter fun other => decide (key other ≠ key item)) rest

/-- The pool holds what it held before and what the parties hold, under different keys. -/
structure Accounted (key : ρ → κ) (held : ℓ → List ρ) (before pool : List ρ)
    (parties : List ℓ) : Prop where
  perm : pool.Perm (before ++ parties.flatMap held)
  distinct : (pool.map key).Nodup

omit [DecidableEq κ] in
theorem accounted_start {held : ℓ → List ρ} {before : List ρ} {parties : List ℓ}
    (hdistinct : (before.map key).Nodup) (hnone : ∀ party ∈ parties, held party = []) :
    Accounted key held before before parties := by
  have hnil : parties.flatMap held = [] := List.flatMap_eq_nil_iff.mpr hnone
  refine ⟨?_, hdistinct⟩
  rw [hnil, List.append_nil]

/-- An item can be moved to the front of what all the parties hold. -/
theorem perm_held {before left right rest held : List ρ} {item : ρ}
    (hheld : held.Perm (item :: rest)) :
    (before ++ (left ++ (held ++ right))).Perm (item :: (before ++ (left ++ (rest ++ right)))) :=
  calc (before ++ (left ++ (held ++ right))).Perm (before ++ (left ++ (item :: rest ++ right))) :=
        ((hheld.append_right right).append_left left).append_left before
    _ = before ++ left ++ item :: (rest ++ right) := by simp
    _ |>.Perm (item :: (before ++ left ++ (rest ++ right))) := List.perm_middle
    _ = item :: (before ++ (left ++ (rest ++ right))) := by simp

theorem Accounted.moved {held : ℓ → List ρ} {before pool pool' : List ρ} {left right : List ℓ}
    {party party' : ℓ} (h : Accounted key held before pool (left ++ party :: right))
    (hmove : Handles key pool (held party) pool' (held party')) :
    Accounted key held before pool' (left ++ party' :: right) := by
  have hflat : ∀ p, (left ++ p :: right).flatMap held =
      left.flatMap held ++ (held p ++ right.flatMap held) := by
    intro p
    rw [List.flatMap_append, List.flatMap_cons]
  obtain ⟨hperm, hdistinct⟩ := h
  rw [hflat] at hperm
  generalize hheld' : held party' = held' at hmove
  cases hmove with
  | keep =>
      refine ⟨?_, hdistinct⟩
      rw [hflat, hheld']
      exact hperm
  | take item hfresh =>
      constructor
      · rw [hflat, hheld']
        have hlast : (held party ++ [item]).Perm (item :: held party) := List.perm_append_comm
        calc (pool ++ [item]).Perm (item :: pool) := List.perm_append_comm
          _ |>.Perm
              (item :: (before ++ (left.flatMap held ++ (held party ++ right.flatMap held)))) :=
              hperm.cons item
          _ |>.Perm _ := (perm_held hlast).symm
      · rw [List.map_append, List.map_singleton, List.nodup_append]
        refine ⟨hdistinct, by simp, ?_⟩
        intro k hk k' hk'
        obtain ⟨other, hother, rfl⟩ := List.mem_map.mp hk
        rw [List.mem_singleton.mp hk']
        exact hfresh other hother
  | give item rest hheld =>
      have hall := hperm.trans (perm_held hheld)
      have hkeys := (hall.map key).nodup_iff.mp hdistinct
      rw [List.map_cons, List.nodup_cons] at hkeys
      constructor
      · rw [hflat, hheld']
        -- nothing else is kept under the key of what is given back
        have hkept : (before ++ (left.flatMap held ++ (held' ++ right.flatMap held))).filter
            (fun other => decide (key other ≠ key item)) =
              before ++ (left.flatMap held ++ (held' ++ right.flatMap held)) := by
          apply List.filter_eq_self.mpr
          intro other hother
          apply decide_eq_true
          intro heq
          exact hkeys.1 (heq ▸ List.mem_map_of_mem hother)
        have hfilter := hall.filter fun other => decide (key other ≠ key item)
        rw [List.filter_cons_of_neg (by simp), hkept] at hfilter
        exact hfilter
      · exact hdistinct.sublist (List.filter_sublist.map key)

/-- Where every move handles the pool that way, it is accounted for at the end of every
run. -/
theorem accounted_run {move : σ → ℓ → ε → Option (σ × ℓ)} {pool : σ → List ρ}
    {held : ℓ → List ρ} {fresh : σ → Prop} {before : List ρ} {shared after : Shared σ ℓ}
    {labels : List (ℕ × ε)} {out : List Empty}
    (hmove : ∀ s p e s' p', fresh s → move s p e = some (s', p') →
      fresh s' ∧ Handles key (pool s) (held p) (pool s') (held p'))
    (hfresh : fresh shared.state)
    (hstart : Accounted key held before (pool shared.state) shared.parties)
    (hrun : (interleaving move).run shared labels = some (after, out)) :
    Accounted key held before (pool after.state) after.parties := by
  let I : Shared σ ℓ → Prop := fun shared =>
    fresh shared.state ∧ Accounted key held before (pool shared.state) shared.parties
  have hend : I after := by
    apply System.invariant_run _ (show I shared from ⟨hfresh, hstart⟩) hrun
    intro s ⟨i, e⟩ t out ⟨hfresh, hs⟩ hstep
    obtain ⟨left, party, right, state, party', hparties, -, hmoved, rfl⟩ := interleaving_step hstep
    obtain ⟨hfresh', hhandles⟩ := hmove _ _ _ _ _ hfresh hmoved
    rw [hparties] at hs
    exact ⟨hfresh', hs.moved hhandles⟩
  exact hend.2

end Lour.Lib
