import Mathlib.Data.List.Basic
import Mathlib.Data.List.TakeWhile
/-!
# Regular expressions without alternatives

A pattern is a list of pieces: fixed texts, repetitions of a class of characters, greedy
or lazy, and the anchors of a line.  The search takes the first way through the pieces in
the order of backtracking; `Takes` is any way through them.
-/

namespace Lour.Lib.Regex

inductive Piece where
  | text (cs : List Char)
  /-- At least `least` characters of the class, and at most `most` of them. -/
  | rep (p : Char → Bool) (least : ℕ) (most : Option ℕ) (lazy : Bool)
  /-- `^`, and `$`, of any line. -/
  | lineStart
  | lineEnd

abbrev Pattern := List Piece

/-- The character before a position, when `taken` has been taken after `before`. -/
def lastOf (before : Option Char) (taken : List Char) : Option Char := taken.getLast?.or before

/-- The most characters that a repetition can take. -/
def longest (p : Char → Bool) (most : Option ℕ) (s : List Char) : ℕ :=
  match most with
  | none => (s.takeWhile p).length
  | some m => min m (s.takeWhile p).length

/-- The numbers of characters that a repetition takes, in the order they are tried. -/
def counts (p : Char → Bool) (least : ℕ) (most : Option ℕ) (lazy : Bool) (s : List Char) :
    List ℕ :=
  let ks := List.range' least (longest p most s + 1 - least)
  if lazy then ks else ks.reverse

/-- A match at the position before `s`: what each text and each repetition took, and the
rest. -/
def run : Pattern → Option Char → List Char → Option (List (List Char) × List Char)
  | [], _, s => some ([], s)
  | .text cs :: ps, before, s =>
      if cs <+: s then
        (run ps (lastOf before cs) (s.drop cs.length)).map fun r => (cs :: r.1, r.2)
      else none
  | .rep p least most lazy :: ps, before, s =>
      (counts p least most lazy s).findSome? fun k =>
        (run ps (lastOf before (s.take k)) (s.drop k)).map fun r => (s.take k :: r.1, r.2)
  | .lineStart :: ps, before, s =>
      if before = none ∨ before = some '\n' then run ps before s else none
  | .lineEnd :: ps, before, s =>
      if s = [] ∨ s.head? = some '\n' then run ps before s else none

/-! ## The ways through a pattern -/

/-- One way through the pieces. -/
def Takes : Pattern → Option Char → List Char → List (List Char) → List Char → Prop
  | [], _, s, parts, rest => parts = [] ∧ rest = s
  | .text cs :: ps, before, s, parts, rest =>
      ∃ t parts', s = cs ++ t ∧ Takes ps (lastOf before cs) t parts' rest ∧ parts = cs :: parts'
  | .rep p least most _ :: ps, before, s, parts, rest =>
      ∃ x t parts', s = x ++ t ∧ (∀ c ∈ x, p c = true) ∧ least ≤ x.length ∧
        (∀ m, most = some m → x.length ≤ m) ∧ Takes ps (lastOf before x) t parts' rest ∧
        parts = x :: parts'
  | .lineStart :: ps, before, s, parts, rest =>
      (before = none ∨ before = some '\n') ∧ Takes ps before s parts rest
  | .lineEnd :: ps, before, s, parts, rest =>
      (s = [] ∨ s.head? = some '\n') ∧ Takes ps before s parts rest

section Search

variable {p : Char → Bool} {least : ℕ} {most : Option ℕ} {lazy : Bool} {ps : Pattern}
  {before : Option Char} {s : List Char}

theorem mem_counts {k : ℕ} :
    k ∈ counts p least most lazy s ↔ least ≤ k ∧ k ≤ longest p most s := by
  have hrange : k ∈ List.range' least (longest p most s + 1 - least) ↔
      least ≤ k ∧ k ≤ longest p most s := by
    rw [List.mem_range'_1]
    omega
  cases lazy with
  | true => exact hrange
  | false => exact List.mem_reverse.trans hrange

theorem length_le_longest {x t : List Char} (hx : ∀ c ∈ x, p c = true)
    (hmost : ∀ m, most = some m → x.length ≤ m) : x.length ≤ longest p most (x ++ t) := by
  have hrun : x.length ≤ ((x ++ t).takeWhile p).length := by
    rw [List.takeWhile_append_of_pos hx, List.length_append]
    omega
  cases most with
  | none => exact hrun
  | some m => exact Nat.le_min.mpr ⟨hmost m rfl, hrun⟩

theorem longest_le_takeWhile : longest p most s ≤ (s.takeWhile p).length := by
  cases most with
  | none => exact le_rfl
  | some m => exact Nat.min_le_right ..

/-- What a repetition can take is of its class. -/
theorem of_le_longest {k : ℕ} (h : k ≤ longest p most s) :
    (s.take k).length = k ∧ (∀ c ∈ s.take k, p c = true) ∧ ∀ m, most = some m → k ≤ m := by
  have hk : k ≤ (s.takeWhile p).length := h.trans longest_le_takeWhile
  have htake : s.take k = (s.takeWhile p).take k := by
    calc s.take k = (s.takeWhile p ++ s.dropWhile p).take k := by
          rw [List.takeWhile_append_dropWhile]
      _ = (s.takeWhile p).take k := List.take_append_of_le_length hk
  refine ⟨?_, ?_, ?_⟩
  · rw [htake, List.length_take]
    omega
  · intro c hc
    rw [htake] at hc
    exact List.mem_takeWhile_imp (List.mem_of_mem_take hc)
  · rintro m rfl
    exact h.trans (Nat.min_le_left ..)

/-- What the search takes is a way through the pattern. -/
theorem takes_of_run {parts : List (List Char)} {rest : List Char}
    (h : run ps before s = some (parts, rest)) : Takes ps before s parts rest := by
  induction ps generalizing before s parts rest with
  | nil =>
      cases h
      exact ⟨rfl, rfl⟩
  | cons piece ps ih =>
      cases piece with
      | text cs =>
          rw [run] at h
          split at h
          next hcs =>
              obtain ⟨⟨parts', rest'⟩, hrun, hr⟩ := Option.map_eq_some_iff.mp h
              cases hr
              obtain ⟨t, rfl⟩ := hcs
              rw [List.drop_left] at hrun
              exact ⟨t, parts', rfl, ih hrun, rfl⟩
          next => cases h
      | rep p least most lazy =>
          rw [run] at h
          obtain ⟨k, hk, hr⟩ := List.exists_of_findSome?_eq_some h
          obtain ⟨⟨parts', rest'⟩, hrun, hr⟩ := Option.map_eq_some_iff.mp hr
          cases hr
          obtain ⟨hleast, hlongest⟩ := mem_counts.mp hk
          obtain ⟨hlength, hclass, hmost⟩ := of_le_longest hlongest
          refine ⟨s.take k, s.drop k, parts', (List.take_append_drop k s).symm, hclass, ?_, ?_,
            ih hrun, rfl⟩
          · rwa [hlength]
          · rwa [hlength]
      | lineStart =>
          rw [run] at h
          split at h
          next hstart => exact ⟨hstart, ih h⟩
          next => cases h
      | lineEnd =>
          rw [run] at h
          split at h
          next hend => exact ⟨hend, ih h⟩
          next => cases h

/-- The search finds a match wherever there is a way. -/
theorem run_isSome_of_takes {parts : List (List Char)} {rest : List Char}
    (h : Takes ps before s parts rest) : (run ps before s).isSome = true := by
  induction ps generalizing before s parts rest with
  | nil => rfl
  | cons piece ps ih =>
      cases piece with
      | text cs =>
          obtain ⟨t, parts', rfl, hrest, -⟩ := h
          rw [run, if_pos (List.prefix_append cs t), List.drop_left, Option.isSome_map]
          exact ih hrest
      | rep p least most lazy =>
          obtain ⟨x, t, parts', rfl, hclass, hleast, hmost, hrest, -⟩ := h
          rw [run, List.isSome_findSome?, List.any_eq_true]
          refine ⟨x.length, mem_counts.mpr ⟨hleast, length_le_longest hclass hmost⟩, ?_⟩
          rw [List.take_left, List.drop_left, Option.isSome_map]
          exact ih hrest
      | lineStart =>
          obtain ⟨hstart, hrest⟩ := h
          rw [run, if_pos hstart]
          exact ih hrest
      | lineEnd =>
          obtain ⟨hend, hrest⟩ := h
          rw [run, if_pos hend]
          exact ih hrest

theorem run_eq_none_of_not_takes (h : ∀ parts rest, ¬ Takes ps before s parts rest) :
    run ps before s = none := by
  apply Option.eq_none_iff_forall_not_mem.mpr
  rintro ⟨parts, rest⟩ hrun
  exact h parts rest (takes_of_run hrun)

/-! ## The first way -/

/-- Of a list in order the search takes the first element that succeeds. -/
theorem findSome?_of_first {β : Type} {R : ℕ → ℕ → Prop} {l : List ℕ} {f : ℕ → Option β} {b : β}
    {k : ℕ} (hl : l.Pairwise R) (hk : k ∈ l) (hf : f k = some b)
    (hbefore : ∀ j ∈ l, R j k → f j = none) : l.findSome? f = some b := by
  obtain ⟨first, last, rfl⟩ := List.append_of_mem hk
  apply List.findSome?_eq_some_iff.mpr
  refine ⟨first, k, last, rfl, hf, ?_⟩
  intro j hj
  apply hbefore j (List.mem_append_left _ hj)
  exact (List.pairwise_append.mp hl).2.2 j hj k List.mem_cons_self

/-- A greedy repetition takes as much as it can with a way to go on. -/
theorem run_greedy {x t : List Char} {r : List (List Char) × List Char}
    (hclass : ∀ c ∈ x, p c = true) (hleast : least ≤ x.length)
    (hmost : ∀ m, most = some m → x.length ≤ m) (hr : run ps (lastOf before x) t = some r)
    (hmore : ∀ y u, y ++ u = t → y ≠ [] → (∀ c ∈ y, p c = true) →
      (∀ m, most = some m → (x ++ y).length ≤ m) → run ps (lastOf before (x ++ y)) u = none) :
    run (.rep p least most false :: ps) before (x ++ t) = some (x :: r.1, r.2) := by
  rw [run]
  have hsorted : (counts p least most false (x ++ t)).Pairwise fun j k => k < j :=
    List.pairwise_reverse.mpr List.pairwise_lt_range'
  apply findSome?_of_first hsorted (mem_counts.mpr ⟨hleast, length_le_longest hclass hmost⟩)
  · rw [List.take_left, List.drop_left, hr]
    rfl
  · intro j hj hlt
    obtain ⟨hlength, hj', hm⟩ := of_le_longest (mem_counts.mp hj).2
    have hy : (x ++ t).take j = x ++ t.take (j - x.length) := by
      rw [List.take_append, List.take_of_length_le (le_of_lt hlt)]
    have hu : (x ++ t).drop j = t.drop (j - x.length) := by
      rw [List.drop_append, List.drop_eq_nil_of_le (le_of_lt hlt), List.nil_append]
    rw [hy] at hlength hj' ⊢
    rw [hu, hmore _ _ (List.take_append_drop _ t), Option.map_none]
    · intro hnil
      rw [hnil, List.append_nil] at hlength
      omega
    · exact fun c hc => hj' c (List.mem_append_right _ hc)
    · intro m hmost'
      rw [hlength]
      exact hm m hmost'

/-- A lazy repetition takes as little as it can with a way to go on. -/
theorem run_lazy {x t : List Char} {r : List (List Char) × List Char}
    (hclass : ∀ c ∈ x, p c = true) (hleast : least ≤ x.length)
    (hmost : ∀ m, most = some m → x.length ≤ m) (hr : run ps (lastOf before x) t = some r)
    (hless : ∀ y u, y ++ u = x → u ≠ [] → run ps (lastOf before y) (u ++ t) = none) :
    run (.rep p least most true :: ps) before (x ++ t) = some (x :: r.1, r.2) := by
  rw [run]
  have hsorted : (counts p least most true (x ++ t)).Pairwise (· < ·) := List.pairwise_lt_range'
  apply findSome?_of_first hsorted (mem_counts.mpr ⟨hleast, length_le_longest hclass hmost⟩)
  · rw [List.take_left, List.drop_left, hr]
    rfl
  · intro j _ hlt
    have hu : (x ++ t).drop j = x.drop j ++ t := List.drop_append_of_le_length (le_of_lt hlt)
    rw [hu, List.take_append_of_le_length (le_of_lt hlt), hless _ _ (List.take_append_drop j x),
      Option.map_none]
    intro hnil
    have hlength := congrArg List.length hnil
    rw [List.length_drop, List.length_nil] at hlength
    omega

end Search

/-! ## All matches of a text -/

/-- A character that no match has, or what a match took. -/
inductive Token where
  | char (c : Char)
  | found (parts : List (List Char))

def Token.kept : Token → Option Char
  | char c => some c
  | found _ => none

def Token.taken : Token → Option (List (List Char))
  | char _ => none
  | found parts => some parts

/-- The matches of a text from left to right, and what is between them.  No pattern here has
an empty match. -/
def tokens (ps : Pattern) (before : Option Char) (s : List Char) : List Token :=
  match s with
  | [] => []
  | c :: cs =>
      match run ps before (c :: cs) with
      | none => .char c :: tokens ps (some c) cs
      | some (parts, rest) =>
          if rest.length < cs.length + 1 then
            .found parts :: tokens ps (lastOf before parts.flatten) rest
          else .char c :: tokens ps (some c) cs
termination_by s.length

/-- `re.finditer`. -/
def finditer (ps : Pattern) (before : Option Char) (s : List Char) : List (List (List Char)) :=
  (tokens ps before s).filterMap Token.taken

/-- `re.sub` with nothing in the place of a match. -/
def remove (ps : Pattern) (s : List Char) : List Char :=
  (tokens ps none s).filterMap Token.kept

section Tokens

variable {ps : Pattern} {before : Option Char} {s : List Char}

theorem tokens_nil : tokens ps before [] = [] := by
  rw [tokens]

theorem tokens_of_none {c : Char} {cs : List Char} (h : run ps before (c :: cs) = none) :
    tokens ps before (c :: cs) = .char c :: tokens ps (some c) cs := by
  rw [tokens, h]

theorem tokens_of_some {parts : List (List Char)} {rest : List Char}
    (h : run ps before s = some (parts, rest)) (hlt : rest.length < s.length) :
    tokens ps before s = .found parts :: tokens ps (lastOf before parts.flatten) rest := by
  cases s with
  | nil => exact absurd hlt (Nat.not_lt_zero _)
  | cons c cs =>
      rw [tokens, h]
      exact if_pos hlt

end Tokens

end Lour.Lib.Regex
