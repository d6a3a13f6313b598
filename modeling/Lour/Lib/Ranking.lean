import Mathlib.Data.List.Dedup
import Mathlib.Data.List.Sort
import Mathlib.Order.Bounds.Basic
import Lour.Lib.OrderedDict
/-!
# Rankings

A list sorted by descending scores, equal scores in the order they had; what its
first entries are among all; and the best entry of each key in a list.
-/

namespace Lour.Lib

open scoped List

variable {α S κ : Type*} [LinearOrder S] (score : α → S)

/-! ## Sorting -/

/-- `sorted(l, key=score, reverse=True)`, a stable sort. -/
def ranked (l : List α) : List α := l.insertionSort fun a b => score b ≤ score a

theorem ranked_perm (l : List α) : (ranked score l).Perm l := List.perm_insertionSort _ l

@[simp] theorem mem_ranked {l : List α} {a : α} : a ∈ ranked score l ↔ a ∈ l :=
  (ranked_perm score l).mem_iff

theorem ranked_pairwise (l : List α) :
    (ranked score l).Pairwise fun a b => score b ≤ score a := by
  have htotal : Std.Total fun a b : α => score b ≤ score a :=
    ⟨fun a b => le_total (score b) (score a)⟩
  have htrans : IsTrans α fun a b => score b ≤ score a :=
    ⟨fun a b c hab hbc => le_trans hbc hab⟩
  exact List.pairwise_insertionSort _ l

/-- Entries of one score keep their order. -/
theorem filter_ranked (l : List α) (s : S) :
    (ranked score l).filter (fun a => decide (score a = s)) =
      l.filter fun a => decide (score a = s) := by
  have htotal : Std.Total fun a b : α => score b ≤ score a :=
    ⟨fun a b => le_total (score b) (score a)⟩
  have htrans : IsTrans α fun a b => score b ≤ score a :=
    ⟨fun a b c hab hbc => le_trans hbc hab⟩
  have hsorted : (l.filter fun a => decide (score a = s)).Pairwise
      fun a b => score b ≤ score a := by
    apply List.pairwise_of_forall_mem_list
    intro a ha b hb
    have hscore : score a = s := of_decide_eq_true (List.mem_filter.mp ha).2
    have hscore' : score b = s := of_decide_eq_true (List.mem_filter.mp hb).2
    rw [hscore, hscore']
  have hsub := (List.sublist_insertionSort hsorted List.filter_sublist).filter
    fun a => decide (score a = s)
  rw [List.filter_filter] at hsub
  simp only [Bool.and_self] at hsub
  have hlength := ((ranked_perm score l).filter fun a => decide (score a = s)).length_eq
  exact (hsub.eq_of_length hlength.symm).symm

/-- The entries ranked first score at least as high as the others. -/
theorem score_drop_le_score_take {l : List α} {n : ℕ} {a b : α}
    (ha : a ∈ (ranked score l).take n) (hb : b ∈ (ranked score l).drop n) :
    score b ≤ score a := by
  have hpairwise := ranked_pairwise score l
  rw [← List.take_append_drop n (ranked score l), List.pairwise_append] at hpairwise
  exact hpairwise.2.2 a ha b hb

/-- Where the scores are pairwise different there is one ranking. -/
theorem ranked_eq_of_perm {l l' : List α} (hperm : l.Perm l')
    (hinj : ∀ a ∈ l, ∀ b ∈ l, score a = score b → a = b) : ranked score l = ranked score l' := by
  have hanti : ∀ a b, a ∈ ranked score l → b ∈ ranked score l' → score b ≤ score a →
      score a ≤ score b → a = b := by
    intro a b ha hb hab hba
    have hb : b ∈ l := hperm.mem_iff.mpr ((mem_ranked score).mp hb)
    exact hinj a ((mem_ranked score).mp ha) b hb (le_antisymm hba hab)
  apply List.Perm.eq_of_pairwise hanti (ranked_pairwise score l) (ranked_pairwise score l')
  calc ranked score l ~ l := ranked_perm score l
    _ ~ l' := hperm
    _ ~ ranked score l' := (ranked_perm score l').symm

/-- Ranking sees nothing of an entry but its score. -/
theorem map_ranked {β : Type*} (f : α → β) {score' : β → S} (h : ∀ a, score' (f a) = score a)
    (l : List α) : (ranked score l).map f = ranked score' (l.map f) := by
  apply List.map_insertionSort
  intro a _ b _
  rw [h, h]

/-! ## The best entry of each key -/

variable [DecidableEq κ] (key : α → κ)

/-- The scores a key has in a list. -/
def scoresOf (l : List α) (k : κ) : Set S := {s | ∃ a ∈ l, key a = k ∧ score a = s}

/-- `if key(a) not in d or score(a) > score(d[key(a)]): d[key(a)] = a`. -/
def keepBest (d : OrderedDict κ α) (a : α) : OrderedDict κ α :=
  match d.get? (key a) with
  | none => d.set (key a) a
  | some b => if score b < score a then d.set (key a) a else d

/-- The dictionary has, under each key of the list, an entry of the list with the
key's greatest score. -/
structure Best (d : OrderedDict κ α) (l : List α) : Prop where
  mem : ∀ k a, d.get? k = some a → a ∈ l ∧ key a = k
  le : ∀ a ∈ l, ∃ b, d.get? (key a) = some b ∧ score a ≤ score b

namespace Best

variable {score key} {d : OrderedDict κ α} {l : List α}

theorem empty : Best score key (OrderedDict.empty : OrderedDict κ α) [] where
  mem := by
    intro k a hget
    cases hget
  le := List.forall_mem_nil _

/-- The new entry in place of one that scores no higher, or of none. -/
theorem set (h : Best score key d l) {a : α}
    (hle : ∀ b, d.get? (key a) = some b → score b ≤ score a) :
    Best score key (d.set (key a) a) (l ++ [a]) where
  mem := by
    intro k b hget
    rw [OrderedDict.get?_set] at hget
    by_cases hk : k = key a
    · rw [if_pos hk, Option.some.injEq] at hget
      rw [← hget, hk]
      exact ⟨List.mem_append_right _ (List.mem_singleton_self a), rfl⟩
    · rw [if_neg hk] at hget
      exact ⟨List.mem_append_left _ (h.mem k b hget).1, (h.mem k b hget).2⟩
  le := by
    intro c hc
    rw [OrderedDict.get?_set]
    by_cases hk : key c = key a
    · rw [if_pos hk]
      refine ⟨a, rfl, ?_⟩
      rcases List.mem_append.mp hc with hmem | hmem
      · obtain ⟨b, hget, hcb⟩ := h.le c hmem
        rw [hk] at hget
        exact le_trans hcb (hle b hget)
      · rw [List.mem_singleton.mp hmem]
    · rw [if_neg hk]
      rcases List.mem_append.mp hc with hmem | hmem
      · exact h.le c hmem
      · exact absurd (congrArg key (List.mem_singleton.mp hmem)) hk

theorem step (h : Best score key d l) (a : α) :
    Best score key (keepBest score key d a) (l ++ [a]) := by
  rw [keepBest]
  cases hget : d.get? (key a) with
  | none =>
      apply h.set
      intro b hb
      rw [hget] at hb
      cases hb
  | some b =>
      by_cases hlt : score b < score a
      · simp only [if_pos hlt]
        apply h.set
        intro c hc
        rw [hget, Option.some.injEq] at hc
        rw [← hc]
        exact le_of_lt hlt
      · simp only [if_neg hlt]
        constructor
        · intro k c hc
          exact ⟨List.mem_append_left _ (h.mem k c hc).1, (h.mem k c hc).2⟩
        · intro c hc
          rcases List.mem_append.mp hc with hmem | hmem
          · exact h.le c hmem
          · rw [List.mem_singleton.mp hmem]
            exact ⟨b, hget, not_lt.mp hlt⟩

/-- Entering a list entry by entry. -/
theorem foldl (h : Best score key d l) (l' : List α) :
    Best score key (l'.foldl (keepBest score key) d) (l ++ l') := by
  induction l' generalizing d l with
  | nil => rwa [List.append_nil]
  | cons a l' ih =>
      rw [List.append_cons l a l']
      exact ih (h.step a)

theorem isGreatest (h : Best score key d l) {k : κ} {a : α} (hget : d.get? k = some a) :
    IsGreatest (scoresOf score key l k) (score a) := by
  constructor
  · exact ⟨a, (h.mem k a hget).1, (h.mem k a hget).2, rfl⟩
  · rintro s ⟨b, hb, rfl, rfl⟩
    obtain ⟨c, hc, hle⟩ := h.le b hb
    rw [hget, Option.some.injEq] at hc
    rwa [hc]

theorem key_of_mem_values (h : Best score key d l) {a : α} (ha : a ∈ d.values) :
    d.get? (key a) = some a := by
  obtain ⟨k, hget⟩ := OrderedDict.mem_values.mp ha
  rwa [(h.mem k a hget).2]

theorem map_key_values (h : Best score key d l) :
    d.values.map key = d.entries.map Prod.fst := by
  rw [OrderedDict.values, List.map_map]
  apply List.map_congr_left
  intro entry hmem
  exact (h.mem entry.1 entry.2 (OrderedDict.get?_eq_some.mpr hmem)).2

theorem nodup_keys (h : Best score key d l) : (d.values.map key).Nodup := by
  rw [h.map_key_values]
  exact d.distinct

theorem mem_map_key_values (h : Best score key d l) {k : κ} :
    k ∈ d.values.map key ↔ k ∈ l.map key := by
  simp only [List.mem_map]
  constructor
  · rintro ⟨a, ha, rfl⟩
    exact ⟨a, (h.mem _ a (h.key_of_mem_values ha)).1, rfl⟩
  · rintro ⟨a, ha, rfl⟩
    obtain ⟨b, hget, -⟩ := h.le a ha
    exact ⟨b, OrderedDict.mem_values.mpr ⟨_, hget⟩, (h.mem _ b hget).2⟩

/-- One entry for each key. -/
theorem length_values (h : Best score key d l) :
    d.values.length = (l.map key).dedup.length := by
  have hperm : (d.values.map key).Perm (l.map key).dedup := by
    apply (List.perm_ext_iff_of_nodup h.nodup_keys (List.nodup_dedup _)).mpr
    intro k
    rw [h.mem_map_key_values, List.mem_dedup]
  rw [← hperm.length_eq, List.length_map]

/-- What the dictionary holds, as keys with their scores. -/
theorem mem_scored (h : Best score key d l) {k : κ} {s : S} :
    (k, s) ∈ d.values.map (fun a => (key a, score a)) ↔ IsGreatest (scoresOf score key l k) s := by
  rw [List.mem_map]
  constructor
  · rintro ⟨a, ha, heq⟩
    rw [Prod.mk.injEq] at heq
    rw [← heq.1, ← heq.2]
    exact h.isGreatest (h.key_of_mem_values ha)
  · intro hs
    obtain ⟨a, ha, rfl, rfl⟩ := hs.1
    obtain ⟨b, hget, -⟩ := h.le a ha
    have hscore : score b = score a := (h.isGreatest hget).unique hs
    refine ⟨b, OrderedDict.mem_values.mpr ⟨_, hget⟩, ?_⟩
    rw [(h.mem _ b hget).2, hscore]

/-- Of lists with the same entries the dictionaries hold the same keys with the same
scores. -/
theorem scored_perm {d' : OrderedDict κ α} {l' : List α} (h : Best score key d l)
    (h' : Best score key d' l') (hmem : ∀ a, a ∈ l ↔ a ∈ l') :
    (d.values.map fun a => (key a, score a)).Perm (d'.values.map fun a => (key a, score a)) := by
  have hnodup : ∀ {d : OrderedDict κ α} {l : List α}, Best score key d l →
      (d.values.map fun a => (key a, score a)).Nodup := by
    intro d l h
    apply List.Nodup.of_map Prod.fst
    rw [List.map_map]
    exact h.nodup_keys
  have hscores : scoresOf score key l = scoresOf score key l' := by
    funext k
    ext s
    simp only [scoresOf, Set.mem_ofPred_eq, hmem]
  apply (List.perm_ext_iff_of_nodup (hnodup h) (hnodup h')).mpr
  rintro ⟨k, s⟩
  rw [h.mem_scored, h'.mem_scored, hscores]

end Best

/-! ## The first of the best entries -/

section First

variable {β : Type*} (f : α → β) {score} {l : List α} {a : α}

/-- An entry that no earlier one equals in score and no later one exceeds. -/
def FirstBest (score : α → S) (l : List α) (a : α) : Prop :=
  ∃ front back, l = front ++ a :: back ∧ (∀ b ∈ front, score b < score a) ∧
    ∀ b ∈ back, score b ≤ score a

/-- `if score(a) > best_score: best, best_score = f(a), score(a)`. -/
def pickBetter (score : α → S) (best : β × S) (a : α) : β × S :=
  if best.2 < score a then (f a, score a) else best

namespace FirstBest

theorem singleton (a : α) : FirstBest score [a] a := by
  refine ⟨[], [], rfl, ?_, ?_⟩
  · exact fun b hb => absurd hb List.not_mem_nil
  · exact fun b hb => absurd hb List.not_mem_nil

theorem mem (h : FirstBest score l a) : a ∈ l := by
  obtain ⟨front, back, hl, -, -⟩ := h
  rw [hl]
  exact List.mem_append_right _ List.mem_cons_self

theorem le (h : FirstBest score l a) {b : α} (hb : b ∈ l) : score b ≤ score a := by
  obtain ⟨front, back, hl, hfront, hback⟩ := h
  rw [hl, List.mem_append, List.mem_cons] at hb
  rcases hb with hb | hb | hb
  · exact le_of_lt (hfront b hb)
  · rw [hb]
  · exact hback b hb

/-- A strictly better entry takes the place; an equal one does not. -/
theorem push_better (h : FirstBest score l a) {b : α} (hlt : score a < score b) :
    FirstBest score (l ++ [b]) b := by
  refine ⟨l, [], rfl, ?_, fun c hc => absurd hc List.not_mem_nil⟩
  exact fun c hc => lt_of_le_of_lt (h.le hc) hlt

theorem push_worse (h : FirstBest score l a) {b : α} (hle : score b ≤ score a) :
    FirstBest score (l ++ [b]) a := by
  obtain ⟨front, back, hl, hfront, hback⟩ := h
  refine ⟨front, back ++ [b], ?_, hfront, ?_⟩
  · rw [hl, List.append_assoc, List.cons_append]
  · intro c hc
    rcases List.mem_append.mp hc with hc | hc
    · exact hback c hc
    · rwa [List.mem_singleton.mp hc]

/-- Only the order of the scores matters. -/
theorem of_strictMono {T : Type*} [LinearOrder T] {g : S → T} (hg : StrictMono g)
    (h : FirstBest (fun a => g (score a)) l a) : FirstBest score l a := by
  obtain ⟨front, back, hl, hfront, hback⟩ := h
  refine ⟨front, back, hl, ?_, ?_⟩
  · exact fun b hb => hg.lt_iff_lt.mp (hfront b hb)
  · exact fun b hb => hg.le_iff_le.mp (hback b hb)

end FirstBest

theorem foldl_pickBetter (rest : List α) (h : FirstBest score l a) :
    ∃ b, FirstBest score (l ++ rest) b ∧
      rest.foldl (pickBetter f score) (f a, score a) = (f b, score b) := by
  induction rest generalizing l a with
  | nil => exact ⟨a, by rwa [List.append_nil], rfl⟩
  | cons c rest ih =>
      rw [List.foldl_cons, List.append_cons]
      by_cases hlt : score a < score c
      · rw [pickBetter, if_pos hlt]
        exact ih (h.push_better hlt)
      · rw [pickBetter, if_neg hlt]
        exact ih (h.push_worse (le_of_not_gt hlt))

/-- From a score that every entry exceeds, the loop ends at the first of the best. -/
theorem foldl_pickBetter_of_lt {start : β × S} (hne : l ≠ [])
    (hstart : ∀ a ∈ l, start.2 < score a) :
    ∃ b, FirstBest score l b ∧ l.foldl (pickBetter f score) start = (f b, score b) := by
  cases l with
  | nil => exact absurd rfl hne
  | cons a rest =>
      rw [List.foldl_cons, pickBetter, if_pos (hstart a List.mem_cons_self)]
      exact foldl_pickBetter f rest (.singleton a)

end First

end Lour.Lib
