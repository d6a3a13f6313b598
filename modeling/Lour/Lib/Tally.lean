import Mathlib.Data.List.Induction
import Mathlib.Data.List.Sort
import Lour.Lib.OrderedDict
/-!
# Aggregates by key

A dictionary that keeps one running aggregate for every key holds, for each key that
occurred, the aggregate of that key's own items, in their order.
-/

namespace Lour.Lib

namespace OrderedDict

variable {κ α β : Type*}

/-- `sorted(d.items())`; the keys are distinct, so the values are not compared. -/
def sortedItems [LinearOrder κ] (d : OrderedDict κ α) : List (κ × α) :=
  d.entries.insertionSort fun a b => a.1 ≤ b.1

variable [DecidableEq κ]

/-- The items with this key. -/
def own (key : κ) (items : List (κ × β)) : List β :=
  (items.filter fun item => item.1 = key).map Prod.snd

/-- `d.setdefault(key, fresh)`, observed with one item. -/
def observeAt (observe : α → β → α) (fresh : α) (d : OrderedDict κ α) (item : κ × β) :
    OrderedDict κ α :=
  d.set item.1 (observe ((d.get? item.1).getD fresh) item.2)

def tally (observe : α → β → α) (fresh : α) (items : List (κ × β)) : OrderedDict κ α :=
  items.foldl (observeAt observe fresh) empty

variable (observe : α → β → α) (fresh : α)

theorem tally_concat (items : List (κ × β)) (item : κ × β) :
    tally observe fresh (items ++ [item]) =
      observeAt observe fresh (tally observe fresh items) item := by
  rw [tally, List.foldl_append]
  rfl

theorem own_concat (items : List (κ × β)) (item : κ × β) (key : κ) :
    own key (items ++ [item]) = own key items ++ if item.1 = key then [item.2] else [] := by
  rw [own, List.filter_append, List.map_append, ← own]
  by_cases hkey : item.1 = key
  · simp [hkey]
  · simp [hkey]

/-- What stands under a key is the aggregate of its own items. -/
theorem getD_tally (items : List (κ × β)) (key : κ) :
    ((tally observe fresh items).get? key).getD fresh = (own key items).foldl observe fresh := by
  induction items using List.reverseRecOn with
  | nil => rfl
  | append_singleton items item ih =>
      rw [tally_concat, observeAt, get?_set, own_concat]
      by_cases hkey : key = item.1
      · rw [if_pos hkey, if_pos hkey.symm, List.foldl_append, ← ih, hkey]
        rfl
      · rw [if_neg hkey, if_neg fun h => hkey h.symm, List.append_nil]
        exact ih

/-- The keys, each where it occurs first. -/
def firstKeys : List κ → List κ
  | [] => []
  | key :: keys => key :: (firstKeys keys).filter fun other => other ≠ key

theorem mem_firstKeys (keys : List κ) (key : κ) : key ∈ firstKeys keys ↔ key ∈ keys := by
  induction keys with
  | nil => exact Iff.rfl
  | cons first keys ih =>
      rw [firstKeys, List.mem_cons, List.mem_cons, List.mem_filter, ih, decide_eq_true_eq]
      tauto

theorem firstKeys_concat (keys : List κ) (key : κ) :
    firstKeys (keys ++ [key]) =
      if key ∈ keys then firstKeys keys else firstKeys keys ++ [key] := by
  induction keys with
  | nil => rfl
  | cons first keys ih =>
      rw [List.cons_append, firstKeys, ih, firstKeys]
      by_cases hfirst : key = first
      · rw [if_pos (List.mem_cons.mpr (.inl hfirst))]
        split
        · rfl
        · simp [hfirst]
      · by_cases hmem : key ∈ keys
        · rw [if_pos hmem, if_pos (List.mem_cons_of_mem _ hmem)]
        · have hnot : key ∉ first :: keys := by
            rw [List.mem_cons, not_or]
            exact ⟨hfirst, hmem⟩
          rw [if_neg hmem, if_neg hnot, List.filter_append]
          simp [hfirst]

/-- The keys stand in the order in which they came up. -/
theorem keys_tally (items : List (κ × β)) :
    (tally observe fresh items).entries.map Prod.fst = firstKeys (items.map Prod.fst) := by
  induction items using List.reverseRecOn with
  | nil => rfl
  | append_singleton items item ih =>
      rw [tally_concat, observeAt, set, keys_assign, ih, List.map_append, List.map_singleton,
        firstKeys_concat]
      simp only [mem_firstKeys]

/-- A dictionary from its keys and what stands under them. -/
theorem entries_eq_map (d : OrderedDict κ α) (fresh : α) :
    d.entries = (d.entries.map Prod.fst).map fun key => (key, (d.get? key).getD fresh) := by
  rw [List.map_map]
  conv_lhs => rw [← List.map_id d.entries]
  apply List.map_congr_left
  intro entry hentry
  have hget : d.get? entry.1 = some entry.2 := get?_eq_some.mpr hentry
  show entry = (entry.1, (d.get? entry.1).getD fresh)
  rw [hget]
  rfl

theorem entries_tally (items : List (κ × β)) :
    (tally observe fresh items).entries = (firstKeys (items.map Prod.fst)).map
      fun key => (key, (own key items).foldl observe fresh) := by
  rw [entries_eq_map (tally observe fresh items) fresh, keys_tally]
  apply List.map_congr_left
  intro key _
  rw [getD_tally]

/-- Sorted by key, the aggregates stand in the order of the keys, however the items came. -/
theorem sortedItems_tally [LinearOrder κ] (items : List (κ × β)) :
    (tally observe fresh items).sortedItems =
      ((firstKeys (items.map Prod.fst)).insertionSort fun a b => a ≤ b).map
        fun key => (key, (own key items).foldl observe fresh) := by
  rw [sortedItems, entries_tally,
    List.map_insertionSort (s := fun a b : κ × α => a.1 ≤ b.1) (fun a b => a ≤ b)]
  exact fun _ _ _ _ => Iff.rfl

/-- What the aggregates come to together. -/
def total (amount : α → ℕ) : List (κ × α) → ℕ
  | [] => 0
  | entry :: rest => amount entry.2 + total amount rest

theorem total_assign (amount : α → ℕ) (entries : List (κ × α)) (key : κ) (value : α) :
    total amount (assign key value entries) +
        (((entries.find? fun e => decide (e.1 = key)).map Prod.snd).map amount).getD 0 =
      total amount entries + amount value := by
  induction entries with
  | nil => simp [assign, total]
  | cons entry rest ih =>
      by_cases hkey : entry.1 = key
      · rw [assign, if_pos hkey, List.find?_cons_of_pos (by simpa using hkey)]
        simp only [total, Option.map_some, Option.getD_some]
        omega
      · rw [assign, if_neg hkey, List.find?_cons_of_neg (by simpa using hkey), total, total]
        omega

/-- An amount that each item adds to comes to the items' amounts together. -/
theorem total_tally {amount : α → ℕ} {share : β → ℕ}
    (hobserve : ∀ a b, amount (observe a b) = amount a + share b) (hfresh : amount fresh = 0)
    (items : List (κ × β)) :
    total amount (tally observe fresh items).entries =
      items.foldl (fun n item => n + share item.2) 0 := by
  induction items using List.reverseRecOn with
  | nil => rfl
  | append_singleton items item ih =>
      have hassign := total_assign amount (tally observe fresh items).entries item.1
        (observe (((tally observe fresh items).get? item.1).getD fresh) item.2)
      have hold : (((tally observe fresh items).get? item.1).map amount).getD 0 =
          amount (((tally observe fresh items).get? item.1).getD fresh) := by
        cases (tally observe fresh items).get? item.1 with
        | none => exact hfresh.symm
        | some a => rfl
      rw [hobserve, ← hold] at hassign
      rw [tally_concat, List.foldl_append, ← ih]
      show total amount (assign _ _ _) = _ + share item.2
      simp only [get?] at hassign ⊢
      omega

end OrderedDict

end Lour.Lib
