import Mathlib.Data.List.Perm.Basic
import Mathlib.Data.List.Sort
import Lour.Lib.JsonReader
/-!
# JSON values up to the order of keys

Two values have the same text under `sort_keys=True` exactly where they are equal up to the
order of their keys.
-/

namespace Lour.Lib.Python.Json

/-- How a number is written. -/
def rendering : Json → Option String
  | .int i => some (toString i)
  | .float x => some x.toJson
  | _ => none

mutual

/-- Equal as JSON values: the entries of an object in any order, a number as it is written. -/
inductive Same : Json → Json → Prop
  | null : Same .null .null
  | bool {b : Bool} : Same (.bool b) (.bool b)
  | number {x y : Json} {text : String} (hx : x.rendering = some text)
      (hy : y.rendering = some text) : Same x y
  | str {s : String} : Same (.str s) (.str s)
  | arr {xs ys : List Json} (h : SameItems xs ys) : Same (.arr xs) (.arr ys)
  | obj {d d' e : Dict} (hperm : e.Perm d') (h : SameEntries d e) : Same (.obj d) (.obj d')

inductive SameItems : List Json → List Json → Prop
  | nil : SameItems [] []
  | cons {x y : Json} {xs ys : List Json} (hx : Same x y) (h : SameItems xs ys) :
      SameItems (x :: xs) (y :: ys)

inductive SameEntries : Dict → Dict → Prop
  | nil : SameEntries [] []
  | cons {key : String} {x y : Json} {rest rest' : Dict} (hx : Same x y)
      (h : SameEntries rest rest') : SameEntries ((key, x) :: rest) ((key, y) :: rest')

end

/-! ## Sorted keys -/

section Sorting

variable {d d' : Dict} {x y : Json}

theorem sortEntries_eq_map (d : Dict) :
    sortEntries d = d.map fun e => (e.1, e.2.sortKeys) := by
  induction d with
  | nil => rfl
  | cons e rest ih => rw [sortEntries, ih, List.map_cons]

theorem keys_sortEntries (d : Dict) : (sortEntries d).map (·.1) = d.map (·.1) := by
  rw [sortEntries_eq_map, List.map_map]
  rfl

/-- With distinct keys the order before the sort does not matter. -/
theorem insertionSort_eq_of_perm (hperm : d.Perm d') (hkeys : (d.map (·.1)).Nodup) :
    (d.insertionSort fun a b => a.1 ≤ b.1) = d'.insertionSort fun a b => a.1 ≤ b.1 := by
  have htotal : Std.Total fun a b : String × Json => a.1 ≤ b.1 := ⟨fun a b => le_total a.1 b.1⟩
  have htrans : IsTrans (String × Json) fun a b => a.1 ≤ b.1 := ⟨fun _ _ _ => le_trans⟩
  have hsorted := (List.perm_insertionSort (fun a b : String × Json => a.1 ≤ b.1) d)
  have hsorted' := (List.perm_insertionSort (fun a b : String × Json => a.1 ≤ b.1) d')
  apply List.Perm.eq_of_pairwise _ (List.pairwise_insertionSort _ d)
    (List.pairwise_insertionSort _ d')
  · exact hsorted.trans (hperm.trans hsorted'.symm)
  · intro a b ha hb hab hba
    have hda : a ∈ d := hsorted.subset ha
    have hdb : b ∈ d := hperm.symm.subset (hsorted'.subset hb)
    exact List.inj_on_of_nodup_map hkeys hda hdb (le_antisymm hab hba)

/-- Sorted alike, the entries of one object stand in the order of the other. -/
theorem exists_reordered (h : ((sortEntries d).insertionSort fun a b => a.1 ≤ b.1) =
    (sortEntries d').insertionSort fun a b => a.1 ≤ b.1) :
    ∃ e, sortEntries d = sortEntries e ∧ e.Perm d' := by
  have hperm : (sortEntries d).Perm (sortEntries d') := by
    have hsorted := List.perm_insertionSort (fun a b : String × Json => a.1 ≤ b.1) (sortEntries d)
    apply hsorted.symm.trans
    rw [h]
    exact List.perm_insertionSort _ _
  rw [sortEntries_eq_map d'] at hperm
  have hcomp : Relation.Comp (fun l e => l = e.map fun e : String × Json => (e.1, e.2.sortKeys))
      List.Perm (sortEntries d) d' := by
    rw [List.eq_map_comp_perm]
    exact hperm
  obtain ⟨e, he, hed⟩ := hcomp
  rw [← sortEntries_eq_map] at he
  exact ⟨e, he, hed⟩

theorem wellFormed_of_rendering {text : String} (h : x.rendering = some text) :
    x.WellFormed ∧ x.dumps = text := by
  cases x with
  | int i => exact ⟨trivial, Option.some.inj h⟩
  | float x => exact ⟨trivial, Option.some.inj h⟩
  | _ => cases h

/-- A number is known by how it is written. -/
theorem eq_of_rendering {text : String} (hx : x.rendering = some text)
    (hy : y.rendering = some text) : x = y := by
  obtain ⟨hwf, htext⟩ := wellFormed_of_rendering hx
  obtain ⟨hwf', htext'⟩ := wellFormed_of_rendering hy
  have hread := loads_dumps hwf
  rw [htext, ← htext', loads_dumps hwf'] at hread
  exact (Option.some.inj hread).symm

end Sorting

mutual

/-- Values that are the same are equal once their keys are sorted. -/
theorem sortKeys_of_same {x y : Json} (h : Same x y) (hx : x.WellFormed) (hy : y.WellFormed) :
    x.sortKeys = y.sortKeys := by
  match h with
  | .null => rfl
  | .bool => rfl
  | .number hx hy => rw [eq_of_rendering hx hy]
  | .str => rfl
  | .arr hitems => rw [sortKeys, sortKeys, sortItems_of_same hitems hx hy]
  | @Same.obj d d' e hperm hentries =>
      have hkeys : (e.map (·.1)).Nodup := (hperm.map (·.1)).nodup_iff.mpr hy.1
      have hwf : WellFormedEntries e := by
        rw [wellFormedEntries_iff]
        intro entry hentry
        exact wellFormedEntries_iff.mp hy.2 entry (hperm.subset hentry)
      have hsorted : (sortEntries e).Perm (sortEntries d') := by
        rw [sortEntries_eq_map, sortEntries_eq_map]
        exact hperm.map _
      rw [sortKeys, sortKeys, sortEntries_of_same hentries hx.2 hwf,
        insertionSort_eq_of_perm hsorted (keys_sortEntries e ▸ hkeys)]

theorem sortItems_of_same {xs ys : List Json} (h : SameItems xs ys) (hxs : WellFormedItems xs)
    (hys : WellFormedItems ys) : sortItems xs = sortItems ys := by
  match h with
  | .nil => rfl
  | .cons hx hrest =>
      rw [sortItems, sortItems, sortKeys_of_same hx hxs.1 hys.1,
        sortItems_of_same hrest hxs.2 hys.2]

theorem sortEntries_of_same {d e : Dict} (h : SameEntries d e) (hd : WellFormedEntries d)
    (he : WellFormedEntries e) : sortEntries d = sortEntries e := by
  match h with
  | .nil => rfl
  | .cons hx hrest =>
      rw [sortEntries, sortEntries, sortKeys_of_same hx hd.1 he.1,
        sortEntries_of_same hrest hd.2 he.2]

end

mutual

theorem same_of_sortKeys (x y : Json) (h : x.sortKeys = y.sortKeys) : Same x y := by
  match x with
  | .null =>
      cases y with
      | null => exact .null
      | _ => simp [sortKeys] at h
  | .bool b =>
      cases y with
      | bool b' =>
          have hb : b = b' := by simpa [sortKeys] using h
          exact hb ▸ .bool
      | _ => simp [sortKeys] at h
  | .int i =>
      cases y with
      | int j =>
          have hi : i = j := by simpa [sortKeys] using h
          exact hi ▸ .number rfl rfl
      | _ => simp [sortKeys] at h
  | .float x =>
      cases y with
      | float y =>
          have hx : x = y := by simpa [sortKeys] using h
          exact hx ▸ .number rfl rfl
      | _ => simp [sortKeys] at h
  | .str s =>
      cases y with
      | str t =>
          have hs : s = t := by simpa [sortKeys] using h
          exact hs ▸ .str
      | _ => simp [sortKeys] at h
  | .arr xs =>
      cases y with
      | arr ys =>
          have hitems : sortItems xs = sortItems ys := by simpa [sortKeys] using h
          exact .arr (sameItems_of_sortItems xs ys hitems)
      | _ => simp [sortKeys] at h
  | .obj d =>
      cases y with
      | obj d' =>
          rw [sortKeys, sortKeys, Json.obj.injEq] at h
          obtain ⟨e, he, hperm⟩ := exists_reordered h
          exact .obj hperm (sameEntries_of_sortEntries d e he)
      | _ => simp [sortKeys] at h

theorem sameItems_of_sortItems (xs ys : List Json) (h : sortItems xs = sortItems ys) :
    SameItems xs ys := by
  match xs, ys with
  | [], [] => exact .nil
  | [], y :: ys => cases h
  | x :: xs, [] => cases h
  | x :: xs, y :: ys =>
      rw [sortItems, sortItems, List.cons.injEq] at h
      exact .cons (same_of_sortKeys x y h.1) (sameItems_of_sortItems xs ys h.2)

theorem sameEntries_of_sortEntries (d e : Dict) (h : sortEntries d = sortEntries e) :
    SameEntries d e := by
  match d, e with
  | [], [] => exact .nil
  | [], entry :: e => cases h
  | entry :: d, [] => cases h
  | (key, x) :: d, (key', y) :: e =>
      rw [sortEntries, sortEntries, List.cons.injEq, Prod.mk.injEq] at h
      obtain ⟨⟨rfl, hx⟩, hrest⟩ := h
      exact .cons (same_of_sortKeys x y hx) (sameEntries_of_sortEntries d e hrest)

end

/-! ## The text with sorted keys -/

mutual

theorem wellFormed_sortKeys (x : Json) (h : x.WellFormed) : x.sortKeys.WellFormed := by
  match x with
  | .null => exact h
  | .bool _ => exact h
  | .int _ => exact h
  | .float _ => exact h
  | .str _ => exact h
  | .arr xs =>
      rw [sortKeys]
      exact wellFormedItems_sortItems xs h
  | .obj d =>
      have hsorted := List.perm_insertionSort (fun a b : String × Json => a.1 ≤ b.1) (sortEntries d)
      rw [sortKeys]
      constructor
      · rw [(hsorted.map (·.1)).nodup_iff, keys_sortEntries]
        exact h.1
      · rw [wellFormedEntries_iff]
        intro e he
        exact wellFormedEntries_iff.mp (wellFormedEntries_sortEntries d h.2) e (hsorted.subset he)

theorem wellFormedItems_sortItems (xs : List Json) (h : WellFormedItems xs) :
    WellFormedItems (sortItems xs) := by
  match xs with
  | [] => exact h
  | x :: xs => exact ⟨wellFormed_sortKeys x h.1, wellFormedItems_sortItems xs h.2⟩

theorem wellFormedEntries_sortEntries (d : Dict) (h : WellFormedEntries d) :
    WellFormedEntries (sortEntries d) := by
  match d with
  | [] => exact h
  | (key, x) :: d => exact ⟨wellFormed_sortKeys x h.1, wellFormedEntries_sortEntries d h.2⟩

end

/-- What is written with sorted keys is read back with sorted keys. -/
theorem loads_dumpsSorted {x : Json} (h : x.WellFormed) :
    loads x.dumpsSorted = some x.sortKeys :=
  loads_dumpsWith Reader.restores_escapeAscii (wellFormed_sortKeys x h)

/-- Two values have one text exactly where they are the same. -/
theorem dumpsSorted_eq_iff {x y : Json} (hx : x.WellFormed) (hy : y.WellFormed) :
    x.dumpsSorted = y.dumpsSorted ↔ Same x y := by
  constructor
  · intro h
    have hread := loads_dumpsSorted hx
    rw [h, loads_dumpsSorted hy] at hread
    exact same_of_sortKeys x y (Option.some.inj hread).symm
  · intro h
    rw [dumpsSorted, sortKeys_of_same h hx hy, dumpsSorted]

end Lour.Lib.Python.Json
