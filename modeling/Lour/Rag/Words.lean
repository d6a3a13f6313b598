import Lour.Rag.Coverage
/-!
# The words inside a chunk

The visible characters of a chunk stand at positions of the text, in order; whitespace
between two of them in the chunk is whitespace between their positions.  The pieces of
a text lie in it one after the other, and merging joins them with spaces, so words
stay whole as long as there was whitespace between the pieces.
-/

namespace Lour.Rag

open Lour.Lib.Python

/-! ## Positions -/

def VisibleAt (cs : List Char) (i : ℕ) : Prop := ∃ c, cs[i]? = some c ∧ isSpace c = false

def SpaceAt (cs : List Char) (i : ℕ) : Prop := ∃ c, cs[i]? = some c ∧ isSpace c = true

/-- The visible characters of the chunk at their places in the text.  (That two
neighbours with whitespace between them have whitespace between their places is the
same as that any two have.) -/
structure Placed (chunk text : List Char) (place : ℕ → ℕ) : Prop where
  same : ∀ i c, chunk[i]? = some c → isSpace c = false → text[place i]? = some c
  increasing : ∀ i j, i < j → VisibleAt chunk i → VisibleAt chunk j → place i < place j
  spaced : ∀ i k j, i < k → k < j → VisibleAt chunk i → SpaceAt chunk k → VisibleAt chunk j →
    ∃ m, place i < m ∧ m < place j ∧ SpaceAt text m

def KeepsWords (chunk text : List Char) : Prop := ∃ place, Placed chunk text place

theorem VisibleAt.not_space {cs : List Char} {i : ℕ} (h : VisibleAt cs i) : ¬ SpaceAt cs i := by
  rintro ⟨c, hc, hspace⟩
  obtain ⟨d, hd, hvisible⟩ := h
  rw [hc, Option.some.injEq] at hd
  rw [← hd, hspace] at hvisible
  cases hvisible

theorem Placed.visibleAt {chunk text : List Char} {place : ℕ → ℕ} (h : Placed chunk text place)
    {i : ℕ} (hi : VisibleAt chunk i) : VisibleAt text (place i) := by
  obtain ⟨c, hc, hvisible⟩ := hi
  exact ⟨c, h.same i c hc hvisible, hvisible⟩

theorem VisibleAt.lt {cs : List Char} {i : ℕ} (h : VisibleAt cs i) : i < cs.length := by
  obtain ⟨c, hc, -⟩ := h
  exact (List.getElem?_eq_some_iff.mp hc).1

theorem getElem?_middle (front cs back : List Char) {i : ℕ} (h : i < cs.length) :
    (front ++ cs ++ back)[front.length + i]? = cs[i]? := by
  rw [List.append_assoc, List.getElem?_append_right (by omega), Nat.add_sub_cancel_left,
    List.getElem?_append_left h]

theorem visibleAt_middle {front cs back : List Char} {i : ℕ} (h : VisibleAt cs i) :
    VisibleAt (front ++ cs ++ back) (front.length + i) := by
  rw [VisibleAt, getElem?_middle front cs back h.lt]
  exact h

theorem spaceAt_middle {front cs back : List Char} {i : ℕ} (h : SpaceAt cs i) :
    SpaceAt (front ++ cs ++ back) (front.length + i) := by
  obtain ⟨c, hc, hspace⟩ := h
  have hlt := (List.getElem?_eq_some_iff.mp hc).1
  exact ⟨c, (getElem?_middle front cs back hlt).trans hc, hspace⟩

theorem getElem?_after (left right : List Char) (c : Char) {i : ℕ} (h : left.length < i) :
    (left ++ c :: right)[i]? = right[i - (left.length + 1)]? := by
  rw [List.getElem?_append_right (by omega)]
  obtain ⟨k, rfl⟩ := Nat.exists_eq_add_of_lt h
  have hleft : left.length + k + 1 - left.length = k + 1 := by omega
  have hright : left.length + k + 1 - (left.length + 1) = k := by omega
  rw [hleft, hright]
  rfl

/-- Where a character of two joined stretches comes from. -/
theorem position_cases {left right : List Char} {c : Char} {i : ℕ} {d : Char}
    (h : (left ++ c :: right)[i]? = some d) :
    i < left.length ∧ left[i]? = some d ∨ i = left.length ∧ d = c ∨
      left.length < i ∧ right[i - (left.length + 1)]? = some d := by
  rcases Nat.lt_trichotomy i left.length with hlt | heq | hgt
  · rw [List.getElem?_append_left hlt] at h
    exact .inl ⟨hlt, h⟩
  · rw [heq, List.getElem?_append_right (Nat.le_refl _), Nat.sub_self, List.getElem?_cons_zero,
      Option.some.injEq] at h
    exact .inr (.inl ⟨heq, h.symm⟩)
  · rw [getElem?_after left right c hgt] at h
    exact .inr (.inr ⟨hgt, h⟩)

theorem VisibleAt.cases {left right : List Char} {c : Char} (hc : isSpace c = true) {i : ℕ}
    (h : VisibleAt (left ++ c :: right) i) :
    i < left.length ∧ VisibleAt left i ∨
      left.length < i ∧ VisibleAt right (i - (left.length + 1)) := by
  obtain ⟨d, hd, hvisible⟩ := h
  rcases position_cases hd with ⟨hlt, hleft⟩ | ⟨-, heq⟩ | ⟨hgt, hright⟩
  · exact .inl ⟨hlt, d, hleft, hvisible⟩
  · rw [heq, hc] at hvisible
    cases hvisible
  · exact .inr ⟨hgt, d, hright, hvisible⟩

/-! ## Two chunks joined by a space -/

section Join

variable {left right front back : List Char} {f g : ℕ → ℕ} {c : Char} {i : ℕ}

/-- The places of both chunks, those of the second one in the second stretch of text. -/
def joinedPlace (left front : List Char) (f g : ℕ → ℕ) (i : ℕ) : ℕ :=
  if i < left.length then f i else front.length + 1 + g (i - (left.length + 1))

theorem joinedPlace_left (h : i < left.length) : joinedPlace left front f g i = f i := if_pos h

theorem joinedPlace_right (h : left.length < i) :
    joinedPlace left front f g i = front.length + 1 + g (i - (left.length + 1)) :=
  if_neg (Nat.not_lt_of_lt h)

theorem getElem?_back (m : ℕ) : (front ++ c :: back)[front.length + 1 + m]? = back[m]? := by
  rw [getElem?_after front back c (by omega), Nat.add_sub_cancel_left]

theorem isSpace_blank : isSpace ' ' = true := by decide

namespace Placed

theorem lt_front (hf : Placed left front f) (hi : VisibleAt left i) : f i < front.length :=
  (hf.visibleAt hi).lt

theorem join_same (hf : Placed left front f) (hg : Placed right back g) {d : Char}
    (hd : (left ++ ' ' :: right)[i]? = some d) (hvisible : isSpace d = false) :
    (front ++ c :: back)[joinedPlace left front f g i]? = some d := by
  rcases position_cases hd with ⟨hlt, hleft⟩ | ⟨-, heq⟩ | ⟨hgt, hright⟩
  · rw [joinedPlace_left hlt, List.getElem?_append_left (hf.lt_front ⟨d, hleft, hvisible⟩)]
    exact hf.same i d hleft hvisible
  · rw [heq, isSpace_blank] at hvisible
    cases hvisible
  · rw [joinedPlace_right hgt, getElem?_back]
    exact hg.same _ d hright hvisible

theorem join_increasing (hf : Placed left front f) (hg : Placed right back g) {j : ℕ}
    (hij : i < j) (hi : VisibleAt (left ++ ' ' :: right) i)
    (hj : VisibleAt (left ++ ' ' :: right) j) :
    joinedPlace left front f g i < joinedPlace left front f g j := by
  rcases hi.cases isSpace_blank with ⟨hi, hvi⟩ | ⟨hi, hvi⟩
  · have hfi := hf.lt_front hvi
    rcases hj.cases isSpace_blank with ⟨hj, hvj⟩ | ⟨hj, hvj⟩
    · rw [joinedPlace_left hi, joinedPlace_left hj]
      exact hf.increasing i j hij hvi hvj
    · rw [joinedPlace_left hi, joinedPlace_right hj]
      omega
  · rcases hj.cases isSpace_blank with ⟨hj, hvj⟩ | ⟨hj, hvj⟩
    · omega
    · rw [joinedPlace_right hi, joinedPlace_right hj]
      have hlt := hg.increasing _ _ (by omega) hvi hvj
      omega

theorem join_spaced (hc : isSpace c = true) (hf : Placed left front f) (hg : Placed right back g)
    {k j : ℕ} (hik : i < k) (hkj : k < j) (hi : VisibleAt (left ++ ' ' :: right) i)
    (hk : SpaceAt (left ++ ' ' :: right) k) (hj : VisibleAt (left ++ ' ' :: right) j) :
    ∃ m, joinedPlace left front f g i < m ∧ m < joinedPlace left front f g j ∧
      SpaceAt (front ++ c :: back) m := by
  obtain ⟨d, hd, hdspace⟩ := hk
  rcases hi.cases isSpace_blank with ⟨hi, hvi⟩ | ⟨hi, hvi⟩
  · have hfi := hf.lt_front hvi
    rcases hj.cases isSpace_blank with ⟨hj, hvj⟩ | ⟨hj, hvj⟩
    · rw [joinedPlace_left hi, joinedPlace_left hj]
      rw [List.getElem?_append_left (by omega)] at hd
      obtain ⟨m, him, hmj, e, he, hespace⟩ := hf.spaced i k j hik hkj hvi ⟨d, hd, hdspace⟩ hvj
      refine ⟨m, him, hmj, e, ?_, hespace⟩
      rw [List.getElem?_append_left (List.getElem?_eq_some_iff.mp he).1]
      exact he
    · -- the two stretches themselves are apart
      rw [joinedPlace_left hi, joinedPlace_right hj]
      refine ⟨front.length, hfi, by omega, c, ?_, hc⟩
      rw [List.getElem?_append_right (Nat.le_refl _), Nat.sub_self, List.getElem?_cons_zero]
  · rcases hj.cases isSpace_blank with ⟨hj, hvj⟩ | ⟨hj, hvj⟩
    · omega
    · rw [joinedPlace_right hi, joinedPlace_right hj]
      rw [getElem?_after left right ' ' (by omega)] at hd
      obtain ⟨m, him, hmj, e, he, hespace⟩ :=
        hg.spaced _ _ _ (by omega) (by omega) hvi ⟨d, hd, hdspace⟩ hvj
      refine ⟨front.length + 1 + m, by omega, by omega, e, ?_, hespace⟩
      rw [getElem?_back]
      exact he

end Placed

end Join

namespace KeepsWords

variable {chunk text : List Char}

theorem refl (cs : List Char) : KeepsWords cs cs := by
  refine ⟨id, fun i c hc _ => hc, fun i j hij _ _ => hij, ?_⟩
  intro i k j hik hkj _ hk _
  exact ⟨k, hik, hkj, hk⟩

theorem nil (text : List Char) : KeepsWords [] text := by
  refine ⟨id, ?_, ?_, ?_⟩
  · intro i c hc
    cases hc
  · rintro i j - ⟨c, hc, -⟩
    cases hc
  · rintro i k j - - ⟨c, hc, -⟩
    cases hc

/-- A stretch of the chunk. -/
theorem of_isInfix {part : List Char} (hpart : part <:+: chunk) (h : KeepsWords chunk text) :
    KeepsWords part text := by
  obtain ⟨front, back, rfl⟩ := hpart
  obtain ⟨place, hplace⟩ := h
  refine ⟨fun i => place (front.length + i), ?_, ?_, ?_⟩
  · intro i c hc hvisible
    have hlt := (List.getElem?_eq_some_iff.mp hc).1
    exact hplace.same _ c ((getElem?_middle front part back hlt).trans hc) hvisible
  · intro i j hij hi hj
    exact hplace.increasing _ _ (by omega) (visibleAt_middle hi) (visibleAt_middle hj)
  · intro i k j hik hkj hi hk hj
    exact hplace.spaced _ _ _ (by omega) (by omega) (visibleAt_middle hi) (spaceAt_middle hk)
      (visibleAt_middle hj)

/-- A longer text. -/
theorem mono {longer : List Char} (hlonger : text <:+: longer) (h : KeepsWords chunk text) :
    KeepsWords chunk longer := by
  obtain ⟨front, back, rfl⟩ := hlonger
  obtain ⟨place, hplace⟩ := h
  refine ⟨fun i => front.length + place i, ?_, ?_, ?_⟩
  · intro i c hc hvisible
    have htext := hplace.same i c hc hvisible
    have hlt := (List.getElem?_eq_some_iff.mp htext).1
    exact (getElem?_middle front text back hlt).trans htext
  · intro i j hij hi hj
    have hlt := hplace.increasing i j hij hi hj
    show front.length + place i < front.length + place j
    omega
  · intro i k j hik hkj hi hk hj
    obtain ⟨m, him, hmj, hm⟩ := hplace.spaced i k j hik hkj hi hk hj
    exact ⟨front.length + m, by omega, by omega, spaceAt_middle hm⟩

/-- Whitespace before the text holds no visible character. -/
theorem of_cons {c : Char} (hc : isSpace c = true) (h : KeepsWords chunk (c :: text)) :
    KeepsWords chunk text := by
  obtain ⟨place, hplace⟩ := h
  have hpos : ∀ i, VisibleAt chunk i → 0 < place i := by
    intro i hi
    apply Nat.pos_of_ne_zero
    intro hzero
    have hvisible := hplace.visibleAt hi
    rw [hzero] at hvisible
    exact hvisible.not_space ⟨c, rfl, hc⟩
  have hshift : ∀ m, 0 < m → (c :: text)[m]? = text[m - 1]? := by
    intro m hm
    obtain ⟨n, rfl⟩ := Nat.exists_eq_succ_of_ne_zero (Nat.pos_iff_ne_zero.mp hm)
    rfl
  refine ⟨fun i => place i - 1, ?_, ?_, ?_⟩
  · intro i d hd hvisible
    rw [← hshift (place i) (hpos i ⟨d, hd, hvisible⟩)]
    exact hplace.same i d hd hvisible
  · intro i j hij hi hj
    have hlt := hplace.increasing i j hij hi hj
    have hi := hpos i hi
    show place i - 1 < place j - 1
    omega
  · intro i k j hik hkj hi hk hj
    obtain ⟨m, him, hmj, d, hd, hspace⟩ := hplace.spaced i k j hik hkj hi hk hj
    have hi := hpos i hi
    refine ⟨m - 1, by omega, by omega, d, ?_, hspace⟩
    rw [← hshift m (by omega)]
    exact hd

/-- Two chunks of two stretches of text with whitespace between them, joined by a
space. -/
theorem join {left right front back : List Char} {c : Char} (hc : isSpace c = true)
    (hleft : KeepsWords left front) (hright : KeepsWords right back) :
    KeepsWords (left ++ ' ' :: right) (front ++ c :: back) := by
  obtain ⟨f, hf⟩ := hleft
  obtain ⟨g, hg⟩ := hright
  refine ⟨joinedPlace left front f g, ?_, ?_, ?_⟩
  · exact fun i d hd hvisible => hf.join_same hg hd hvisible
  · exact fun i j hij hi hj => hf.join_increasing hg hij hi hj
  · exact fun i k j hik hkj hi hk hj => hf.join_spaced hc hg hik hkj hi hk hj

end KeepsWords

end Lour.Rag
