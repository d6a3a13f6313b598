import Mathlib.Data.List.DropRight
/-!
# Windows that keep the most recent items

A window of `size` takes items at the back and lets go of the oldest ones at the
front once it is too long, all of them at once where it was too long before.
-/

namespace Lour.Lib.Window

variable {α : Type*} (size : ℕ)

/-- The items evicted, and those kept. -/
def push (items : List α) (a : α) : List α × List α :=
  (items ++ [a]).splitAt ((items ++ [a]).length - size)

/-- All evicted items in order, and the last window. -/
def pushAll : List α → List α → List α × List α
  | items, [] => ([], items)
  | items, a :: as =>
      let (evicted, kept) := push size items a
      let (rest, last) := pushAll kept as
      (evicted ++ rest, last)

theorem push_evicted (items : List α) (a : α) :
    (push size items a).1 = (items ++ [a]).take ((items ++ [a]).length - size) := by
  rw [push, List.splitAt_eq]

theorem push_kept (items : List α) (a : α) :
    (push size items a).2 = (items ++ [a]).rtake size := by
  rw [push, List.splitAt_eq]
  rfl

theorem push_conserves (items : List α) (a : α) :
    (push size items a).1 ++ (push size items a).2 = items ++ [a] := by
  rw [push, List.splitAt_eq]
  exact List.take_append_drop ..

theorem push_length_le (items : List α) (a : α) : (push size items a).2.length ≤ size := by
  rw [push_kept, List.rtake, List.length_drop]
  omega

/-- Nothing is lost, repeated or reordered. -/
theorem pushAll_conserves (items as : List α) :
    (pushAll size items as).1 ++ (pushAll size items as).2 = items ++ as := by
  induction as generalizing items with
  | nil => simp [pushAll]
  | cons a as ih =>
      have hpush := push_conserves size items a
      have hrest := ih (push size items a).2
      calc (pushAll size items (a :: as)).1 ++ (pushAll size items (a :: as)).2
          = (push size items a).1 ++ ((pushAll size (push size items a).2 as).1 ++
              (pushAll size (push size items a).2 as).2) := by
            rw [pushAll]
            exact List.append_assoc ..
        _ = (push size items a).1 ++ ((push size items a).2 ++ as) := by rw [hrest]
        _ = items ++ [a] ++ as := by rw [← List.append_assoc, hpush]
        _ = items ++ a :: as := by rw [List.append_assoc, List.singleton_append]

theorem rtake_append_rtake (xs ys : List α) :
    (xs.rtake size ++ ys).rtake size = (xs ++ ys).rtake size := by
  simp only [List.rtake, List.drop_append, List.length_append, List.length_drop,
    List.drop_drop]
  congr 1
  · congr 1
    omega
  · congr 1
    omega

/-- What is left of a list at its back, fits and is as long as can be is its most
recent part. -/
theorem rtake_of_suffix {size : ℕ} {kept all : List α} (hsuffix : kept <:+ all)
    (hfits : kept.length ≤ size) (henough : kept = all ∨ size ≤ kept.length) :
    kept = all.rtake size := by
  rcases henough with rfl | henough
  · rw [List.rtake, Nat.sub_eq_zero_of_le hfits]
    rfl
  · have hlength : kept.length = size := le_antisymm hfits henough
    rw [List.rtake, ← hlength]
    exact List.suffix_iff_eq_drop.mp hsuffix

/-- The last window is the most recent part of everything, as soon as one item
came in or where the window fitted from the start. -/
theorem pushAll_recent {items as : List α} (h : items.length ≤ size ∨ as ≠ []) :
    (pushAll size items as).2 = (items ++ as).rtake size := by
  induction as generalizing items with
  | nil =>
      have hfits : items.length ≤ size := h.resolve_right fun hne => hne rfl
      rw [pushAll, List.append_nil, List.rtake, Nat.sub_eq_zero_of_le hfits]
      rfl
  | cons a as ih =>
      have hfits := push_length_le size items a
      calc (pushAll size items (a :: as)).2
          = (pushAll size (push size items a).2 as).2 := rfl
        _ = ((items ++ [a]).rtake size ++ as).rtake size := by
            rw [ih (.inl hfits), push_kept]
        _ = (items ++ [a] ++ as).rtake size := rtake_append_rtake size _ _
        _ = (items ++ a :: as).rtake size := by
            rw [List.append_assoc, List.singleton_append]

example : pushAll 2 ["a", "b", "c"] ["d", "e"] = (["a", "b", "c"], ["d", "e"]) := by decide

end Lour.Lib.Window
