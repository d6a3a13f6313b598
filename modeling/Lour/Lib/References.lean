import Mathlib.Data.Set.Card
import Mathlib.Logic.Relation
/-!
# Documents with references

A node of a document has parts, and references to nodes kept under a name.  A walk
that goes into the parts and follows the references ends, in some finite depth,
exactly where no name that it comes to leads back to itself.
-/

namespace Lour.Lib

open Relation

/-- What holds of each element from some depth on holds of all from a common one. -/
theorem exists_common_depth {α : Type*} {P : α → ℕ → Prop} {xs : List α}
    (h : ∀ x ∈ xs, ∃ least, ∀ depth ≥ least, P x depth) :
    ∃ least, ∀ x ∈ xs, ∀ depth ≥ least, P x depth := by
  induction xs with
  | nil => exact ⟨0, fun x hx => absurd hx List.not_mem_nil⟩
  | cons x xs ih =>
      obtain ⟨hx, hxs⟩ := List.forall_mem_cons.mp h
      obtain ⟨d, hd⟩ := hx
      obtain ⟨e, he⟩ := ih hxs
      refine ⟨max d e, List.forall_mem_cons.mpr
        ⟨fun depth hdepth => ?_, fun y hy depth hdepth => ?_⟩⟩
      · exact hd depth (le_trans (le_max_left d e) hdepth)
      · exact he y hy depth (le_trans (le_max_right d e) hdepth)

/-- From a point that no cycle can be reached from, a relation with finitely many
sources cannot be followed for ever. -/
theorem acc_of_acyclic {ν : Type*} {r : ν → ν → Prop} (hfinite : {n | ∃ m, r n m}.Finite) {n : ν}
    (h : ∀ m, ReflTransGen r n m → ¬ TransGen r m m) : Acc (flip r) n := by
  -- on the sources that can still be reached: a step leaves the one it starts from behind
  let sources : ν → Set ν := fun n => {m | (∃ b, r m b) ∧ ReflTransGen r n m}
  have hsources : ∀ n, (sources n).Finite := fun n => hfinite.subset fun m hm => hm.1
  have hacc : ∀ k n, (sources n).ncard = k → (∀ m, ReflTransGen r n m → ¬ TransGen r m m) →
      Acc (flip r) n := by
    intro k
    induction k using Nat.strong_induction_on with
    | _ k ih =>
        intro n hk hacyclic
        constructor
        intro m hstep
        have hnm : r n m := hstep
        have hsubset : sources m ⊂ sources n := by
          refine Set.ssubset_iff_of_subset ?_ |>.mpr ⟨n, ⟨⟨m, hnm⟩, .refl⟩, fun hback => ?_⟩
          · exact fun b hb => ⟨hb.1, hb.2.head hnm⟩
          · exact hacyclic n .refl (TransGen.head' hnm hback.2)
        have hlt : (sources m).ncard < k := by
          rw [← hk]
          exact Set.ncard_lt_ncard hsubset (hsources n)
        exact ih _ hlt m rfl fun b hb => hacyclic b (hb.head hnm)
  exact hacc _ n rfl h

structure Document (α ν : Type*) where
  parts : α → List α
  wf : WellFounded fun b a => b ∈ parts a
  refs : α → List ν
  target : ν → α

namespace Document

variable {α ν : Type*} (D : Document α ν)

/-- A walk from the node ends within the depth. -/
def Within : ℕ → α → Prop
  | 0, _ => False
  | d + 1, a => (∀ n ∈ D.refs a, Within d (D.target n)) ∧ ∀ b ∈ D.parts a, Within d b

/-- The walk comes to a reference to the name, without following one before. -/
inductive Mentions : α → ν → Prop
  | here {a : α} {n : ν} (h : n ∈ D.refs a) : Mentions a n
  | part {a b : α} {n : ν} (hb : b ∈ D.parts a) (hn : Mentions b n) : Mentions a n

def Leads (m n : ν) : Prop := D.Mentions (D.target m) n

/-- The walk comes to the name, by way of others or not. -/
def Reaches (a : α) (n : ν) : Prop := ∃ m, D.Mentions a m ∧ ReflTransGen D.Leads m n

def AcyclicFrom (a : α) : Prop := ∀ n, D.Reaches a n → ¬ TransGen D.Leads n n

section

variable {D} {a b : α} {n : ν}

theorem mentions_iff : D.Mentions a n ↔ n ∈ D.refs a ∨ ∃ b ∈ D.parts a, D.Mentions b n := by
  constructor
  · intro h
    cases h with
    | here h => exact .inl h
    | part hb hn => exact .inr ⟨_, hb, hn⟩
  · rintro (h | ⟨b, hb, hn⟩)
    · exact .here h
    · exact .part hb hn

theorem Within.mono {d e : ℕ} (h : D.Within d a) (hle : d ≤ e) : D.Within e a := by
  induction d generalizing a e with
  | zero => exact absurd h id
  | succ d ih =>
      obtain ⟨e, rfl⟩ := Nat.exists_eq_add_of_lt (Nat.lt_of_succ_le hle)
      exact ⟨fun n hn => ih (h.1 n hn) (Nat.le_add_right d e),
        fun b hb => ih (h.2 b hb) (Nat.le_add_right d e)⟩

/-- What is mentioned has to be walked in less. -/
theorem Within.mentioned {d : ℕ} (h : D.Within d a) (hn : D.Mentions a n) :
    ∃ e < d, D.Within e (D.target n) := by
  induction d generalizing a with
  | zero => exact absurd h id
  | succ d ih =>
      cases hn with
      | here href => exact ⟨d, Nat.lt_succ_self d, h.1 n href⟩
      | part hb hn =>
          obtain ⟨e, hlt, he⟩ := ih (h.2 _ hb) hn
          exact ⟨e, Nat.lt_succ_of_lt hlt, he⟩

theorem Within.led {d : ℕ} {m : ν} (h : D.Within d (D.target m)) (hpath : TransGen D.Leads m n) :
    ∃ e < d, D.Within e (D.target n) := by
  induction hpath with
  | single hstep => exact h.mentioned hstep
  | tail _ hstep ih =>
      obtain ⟨e, hlt, he⟩ := ih
      obtain ⟨e', hlt', he'⟩ := he.mentioned hstep
      exact ⟨e', Nat.lt_trans hlt' hlt, he'⟩

/-- No walk of finite depth comes back to a name. -/
theorem Within.irrefl {d : ℕ} (h : D.Within d (D.target n)) : ¬ TransGen D.Leads n n := by
  intro hcycle
  induction d using Nat.strong_induction_on with
  | _ d ih =>
      obtain ⟨e, hlt, he⟩ := h.led hcycle
      exact ih e hlt he

/-- Depths that are enough one by one have one that is enough for all. -/
theorem within_common {β : Type*} {f : β → α} {xs : List β} (h : ∀ x ∈ xs, ∃ d, D.Within d (f x)) :
    ∃ d, ∀ x ∈ xs, D.Within d (f x) := by
  have hlater : ∀ x ∈ xs, ∃ least, ∀ depth ≥ least, D.Within depth (f x) := by
    intro x hx
    obtain ⟨d, hd⟩ := h x hx
    exact ⟨d, fun depth hdepth => hd.mono hdepth⟩
  obtain ⟨d, hd⟩ := exists_common_depth hlater
  exact ⟨d, fun x hx => hd x hx d le_rfl⟩

/-- Going down into the parts ends by itself: only the names matter. -/
theorem within_of_mentioned (h : ∀ n, D.Mentions a n → ∃ d, D.Within d (D.target n)) :
    ∃ d, D.Within d a := by
  induction a using D.wf.induction with
  | _ a ih =>
      have hrefs : ∀ n ∈ D.refs a, ∃ d, D.Within d (D.target n) := fun n hn => h n (.here hn)
      have hparts : ∀ b ∈ D.parts a, ∃ d, D.Within d (id b) :=
        fun b hb => ih b hb fun n hn => h n (.part hb hn)
      obtain ⟨d, hd⟩ := within_common hrefs
      obtain ⟨e, he⟩ := within_common hparts
      exact ⟨max d e + 1, fun n hn => (hd n hn).mono (le_max_left d e),
        fun b hb => (he b hb).mono (le_max_right d e)⟩

end

/-- With finitely many names that lead anywhere, the walk ends exactly where it
comes to no cycle of names. -/
theorem within_iff (hfinite : {n | ∃ m, D.Leads n m}.Finite) (a : α) :
    (∃ d, D.Within d a) ↔ D.AcyclicFrom a := by
  constructor
  · rintro ⟨d, hd⟩ n ⟨m, hm, hpath⟩
    obtain ⟨e, -, he⟩ := hd.mentioned hm
    rcases reflTransGen_iff_eq_or_transGen.mp hpath with rfl | hpath
    · exact he.irrefl
    · obtain ⟨e', -, he'⟩ := he.led hpath
      exact he'.irrefl
  · intro hacyclic
    have hends : ∀ n, Acc (flip D.Leads) n → ∃ d, D.Within d (D.target n) := by
      intro n hn
      induction hn with
      | intro n _ ih => exact within_of_mentioned fun m hm => ih m hm
    apply within_of_mentioned
    intro n hn
    exact hends n (acc_of_acyclic hfinite fun m hm => hacyclic m ⟨n, hn, hm⟩)

end Document

end Lour.Lib
