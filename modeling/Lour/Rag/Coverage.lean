import Lour.Rag.Sizes
/-!
# What chunking keeps of a text

The characters of a text that are no whitespace, through the splits and the merging.
A split discards its separator; the merging loop loses nothing and may repeat the end
of a chunk.
-/

namespace Lour.Rag

open Lour.Lib.Python

/-! ## The characters that are no whitespace -/

def nonSpace (cs : List Char) : List Char := cs.filter fun c => !isSpace c

@[simp] theorem nonSpace_nil : nonSpace [] = [] := rfl

@[simp] theorem nonSpace_append (cs ds : List Char) :
    nonSpace (cs ++ ds) = nonSpace cs ++ nonSpace ds := List.filter_append ..

theorem nonSpace_of_space {cs : List Char} (h : ∀ c ∈ cs, isSpace c = true) :
    nonSpace cs = [] := by
  apply List.filter_eq_nil_iff.mpr
  intro c hc
  simp [h c hc]

theorem nonSpace_blank {cs : List Char} (h : blankChars cs = true) : nonSpace cs = [] :=
  nonSpace_of_space (List.all_eq_true.mp h)

theorem nonSpace_dropWhile (cs : List Char) : nonSpace (cs.dropWhile isSpace) = nonSpace cs := by
  have htaken : nonSpace (cs.takeWhile isSpace) = [] :=
    nonSpace_of_space fun c hc => List.mem_takeWhile_imp hc
  calc nonSpace (cs.dropWhile isSpace)
      = nonSpace (cs.takeWhile isSpace) ++ nonSpace (cs.dropWhile isSpace) := by
        rw [htaken, List.nil_append]
    _ = nonSpace cs := by rw [← nonSpace_append, List.takeWhile_append_dropWhile]

theorem nonSpace_reverse (cs : List Char) : nonSpace cs.reverse = (nonSpace cs).reverse :=
  List.filter_reverse ..

theorem nonSpace_stripChars (cs : List Char) : nonSpace (stripChars cs) = nonSpace cs := by
  rw [stripChars, List.rdropWhile, nonSpace_reverse, nonSpace_dropWhile, nonSpace_reverse,
    List.reverse_reverse, nonSpace_dropWhile]

theorem nonSpace_spaced (cs ds : List Char) :
    nonSpace (cs ++ ' ' :: ds) = nonSpace cs ++ nonSpace ds := by
  rw [nonSpace_append]
  rfl

/-! ## Parts of a text -/

section Parts

variable {sep : List Char} {parts : List (List Char)} {f : List Char → List (List Char)}

theorem nonSpace_flatten_sublist (sep : List Char) (parts : List (List Char)) :
    (nonSpace parts.flatten).Sublist (nonSpace (sep.intercalate parts)) :=
  (flatten_sublist_intercalate sep parts).filter _

theorem length_nonSpace_intercalate (sep : List Char) (parts : List (List Char)) :
    (nonSpace (sep.intercalate parts)).length =
      (nonSpace parts.flatten).length + (parts.length - 1) * (nonSpace sep).length := by
  induction parts with
  | nil => simp [List.intercalate_nil]
  | cons part parts ih =>
      cases parts with
      | nil => simp
      | cons other parts =>
          rw [List.intercalate_cons_cons, List.flatten_cons, nonSpace_append, nonSpace_append,
            nonSpace_append, List.length_append, List.length_append, List.length_append, ih]
          simp only [List.length_cons, Nat.add_sub_cancel]
          rw [Nat.add_mul, Nat.one_mul]
          omega

/-- The parts say what the text says exactly where nothing visible stands between
them. -/
theorem nonSpace_parts_eq_iff (hparts : 0 < parts.length) :
    nonSpace parts.flatten = nonSpace (sep.intercalate parts) ↔
      parts.length = 1 ∨ nonSpace sep = [] := by
  rw [← (nonSpace_flatten_sublist sep parts).length_eq, length_nonSpace_intercalate]
  constructor
  · intro h
    have hzero : (parts.length - 1) * (nonSpace sep).length = 0 := by omega
    rcases Nat.mul_eq_zero.mp hzero with hone | hsep
    · left
      omega
    · exact .inr (List.length_eq_zero_iff.mp hsep)
  · rintro (hone | hsep)
    · rw [hone]
      omega
    · rw [hsep]
      rfl

theorem nonSpace_flatMap_sublist
    (h : ∀ part ∈ parts, (nonSpace (f part).flatten).Sublist (nonSpace part)) :
    (nonSpace (parts.flatMap f).flatten).Sublist (nonSpace parts.flatten) := by
  induction parts with
  | nil => exact List.Sublist.slnil
  | cons part parts ih =>
      obtain ⟨hpart, hparts⟩ := List.forall_mem_cons.mp h
      rw [List.flatMap_cons, List.flatten_append, List.flatten_cons, nonSpace_append,
        nonSpace_append]
      exact hpart.append (ih hparts)

theorem nonSpace_flatMap_eq_iff
    (h : ∀ part ∈ parts, (nonSpace (f part).flatten).Sublist (nonSpace part)) :
    nonSpace (parts.flatMap f).flatten = nonSpace parts.flatten ↔
      ∀ part ∈ parts, nonSpace (f part).flatten = nonSpace part := by
  induction parts with
  | nil => simp
  | cons part parts ih =>
      obtain ⟨hpart, hparts⟩ := List.forall_mem_cons.mp h
      have hrest := nonSpace_flatMap_sublist hparts
      rw [List.forall_mem_cons, ← ih hparts, ← hpart.length_eq, ← hrest.length_eq,
        ← (nonSpace_flatMap_sublist h).length_eq]
      rw [List.flatMap_cons, List.flatten_append, List.flatten_cons, nonSpace_append,
        nonSpace_append, List.length_append, List.length_append]
      have hle := hpart.length_le
      have hle' := hrest.length_le
      omega

end Parts

/-! ## The splits -/

namespace RecursiveCharacterChunker

variable {self : RecursiveCharacterChunker}

/-- No split of the text discards a separator with a visible character. -/
def Keeps (self : RecursiveCharacterChunker) : List (List Char) → List Char → Prop
  | [], _ => True
  | sep :: rest, text =>
      self.chunkSize < text.length → (sep <:+: text → nonSpace sep = []) ∧
        ∀ part ∈ partsOf sep text, self.chunkSize < part.length → Keeps self rest part

theorem nonSpace_short (text : List Char) : nonSpace (short text).flatten = nonSpace text := by
  rw [short]
  by_cases hblank : blankChars text = true
  · rw [if_pos hblank, nonSpace_blank hblank]
    rfl
  · rw [if_neg hblank, List.flatten_singleton]

theorem flatten_singles (text : List Char) : (text.map fun c => [c]).flatten = text := by
  induction text with
  | nil => rfl
  | cons c cs ih => rw [List.map_cons, List.flatten_cons, ih, List.singleton_append]

/-- The parts say what the text says, less the separators between them. -/
theorem partsOf_nonSpace (sep text : List Char) :
    (nonSpace (partsOf sep text).flatten).Sublist (nonSpace text) ∧
      (nonSpace (partsOf sep text).flatten = nonSpace text ↔
        (sep <:+: text → nonSpace sep = [])) := by
  rw [partsOf]
  by_cases hsep : sep = []
  · rw [if_pos hsep, flatten_singles]
    refine ⟨List.Sublist.refl _, iff_of_true rfl fun _ => ?_⟩
    rw [hsep, nonSpace_nil]
  · rw [if_neg hsep]
    have htext := intercalate_parts hsep text
    have hsub := nonSpace_flatten_sublist sep (splitOn sep 0 [] text)
    have heq := @nonSpace_parts_eq_iff sep (splitOn sep 0 [] text)
      (List.length_pos_iff.mpr (splitOn_ne_nil sep 0 [] text))
    rw [htext] at hsub heq
    refine ⟨hsub, heq.trans ?_⟩
    by_cases hinfix : sep <:+: text
    · have hmany := one_lt_length_splitOn hinfix hsep []
      rw [forall_prop_of_true hinfix]
      refine or_iff_right ?_
      omega
    · rw [splitOn_of_not_isInfix hinfix]
      exact iff_of_true (.inl rfl) fun h => absurd h hinfix

/-- The pieces say what the text says, less the separators that were discarded. -/
theorem splitRecursive_nonSpace {separators : List (List Char)} (hlast : [] ∈ separators)
    (text : List Char) :
    (nonSpace (self.splitRecursive separators text).flatten).Sublist (nonSpace text) ∧
      (nonSpace (self.splitRecursive separators text).flatten = nonSpace text ↔
        self.Keeps separators text) := by
  induction separators generalizing text with
  | nil => exact absurd hlast List.not_mem_nil
  | cons sep rest ih =>
      rw [Keeps]
      by_cases hlong : self.chunkSize < text.length
      · rw [splitRecursive_long hlong, forall_prop_of_true hlong]
        have hpart : ∀ part ∈ partsOf sep text,
            (nonSpace (self.piecesOf rest part).flatten).Sublist (nonSpace part) ∧
            (nonSpace (self.piecesOf rest part).flatten = nonSpace part ↔
              (self.chunkSize < part.length → self.Keeps rest part)) := by
          intro part hmem
          rw [piecesOf]
          by_cases hover : self.chunkSize < part.length
          · rw [if_neg (Nat.not_le_of_lt hover), forall_prop_of_true hover]
            exact ih (nil_mem_of_long hlast hmem hover) part
          · rw [if_pos (Nat.le_of_not_lt hover), nonSpace_short]
            exact ⟨List.Sublist.refl _, iff_of_true rfl fun h => absurd h hover⟩
        have hsub := nonSpace_flatMap_sublist fun part hmem => (hpart part hmem).1
        have heq := nonSpace_flatMap_eq_iff fun part hmem => (hpart part hmem).1
        obtain ⟨hpartsSub, hpartsEq⟩ := partsOf_nonSpace sep text
        refine ⟨hsub.trans hpartsSub, ?_⟩
        rw [← hpartsEq, ← forall₂_congr fun part hmem => (hpart part hmem).2, ← heq]
        constructor
        · intro h
          -- What is lost in no place is lost neither between nor inside the parts.
          have hparts : nonSpace (partsOf sep text).flatten = nonSpace text := by
            apply hpartsSub.eq_of_length_le
            rw [← h]
            exact hsub.length_le
          exact ⟨hparts, h.trans hparts.symm⟩
        · rintro ⟨hparts, hpieces⟩
          exact hpieces.trans hparts
      · rw [splitRecursive_short (Nat.le_of_not_lt hlong), nonSpace_short]
        exact ⟨List.Sublist.refl _, iff_of_true rfl fun h => absurd h hlong⟩

/-! ## The merging loop -/

theorem closed_nonSpace (chunks : List (List Char)) (current : List Char) :
    nonSpace (closed chunks current).flatten = nonSpace chunks.flatten ++ nonSpace current := by
  rw [closed]
  by_cases hnil : current = []
  · rw [if_pos hnil, hnil, nonSpace_nil, List.append_nil]
  · rw [if_neg hnil, List.flatten_append, List.flatten_singleton, nonSpace_append]

theorem candidate_nonSpace (current piece : List Char) :
    nonSpace (candidate current piece) = nonSpace current ++ nonSpace piece := by
  rw [candidate]
  by_cases hnil : current = []
  · rw [if_pos hnil, hnil]
    rfl
  · rw [if_neg hnil, nonSpace_stripChars, nonSpace_spaced]

theorem overlapped_nonSpace (chunks : List (List Char)) (piece : List Char) :
    (nonSpace piece).Sublist (nonSpace (self.overlapped chunks piece)) := by
  rw [overlapped]
  split
  next last =>
      dsimp only
      split
      next => exact List.Sublist.refl _
      next =>
          rw [nonSpace_stripChars, nonSpace_spaced]
          exact List.sublist_append_right ..
  next => exact List.Sublist.refl _

theorem overlapped_of_zero (h : self.chunkOverlap = 0) (chunks : List (List Char))
    (piece : List Char) : self.overlapped chunks piece = piece := by
  rw [overlapped, if_pos h]

/-- One round adds the piece to what the loop holds, after the end of a chunk that it
may repeat. -/
theorem mergePiece_nonSpace (acc : List (List Char) × List Char) (piece : List Char) :
    (nonSpace acc.1.flatten ++ nonSpace acc.2 ++ nonSpace piece).Sublist
        (nonSpace (self.mergePiece acc piece).1.flatten ++
          nonSpace (self.mergePiece acc piece).2) ∧
      (self.chunkOverlap = 0 →
        nonSpace (self.mergePiece acc piece).1.flatten ++
            nonSpace (self.mergePiece acc piece).2 =
          nonSpace acc.1.flatten ++ nonSpace acc.2 ++ nonSpace piece) := by
  rw [mergePiece]
  by_cases hfits : (candidate acc.2 piece).length ≤ self.chunkSize
  · rw [if_pos hfits]
    dsimp only
    rw [candidate_nonSpace, ← List.append_assoc]
    exact ⟨List.Sublist.refl _, fun _ => rfl⟩
  · rw [if_neg hfits]
    dsimp only
    rw [closed_nonSpace]
    refine ⟨(List.Sublist.refl _).append (overlapped_nonSpace _ _), fun h => ?_⟩
    rw [overlapped_of_zero h]

theorem mergeWithOverlap_nonSpace (pieces : List (List Char)) :
    (nonSpace pieces.flatten).Sublist (nonSpace (self.mergeWithOverlap pieces).flatten) ∧
      (self.chunkOverlap = 0 →
        nonSpace (self.mergeWithOverlap pieces).flatten = nonSpace pieces.flatten) := by
  have hfold : ∀ (pieces : List (List Char)) (acc : List (List Char) × List Char),
      (nonSpace acc.1.flatten ++ nonSpace acc.2 ++ nonSpace pieces.flatten).Sublist
          (nonSpace (pieces.foldl self.mergePiece acc).1.flatten ++
            nonSpace (pieces.foldl self.mergePiece acc).2) ∧
        (self.chunkOverlap = 0 →
          nonSpace (pieces.foldl self.mergePiece acc).1.flatten ++
              nonSpace (pieces.foldl self.mergePiece acc).2 =
            nonSpace acc.1.flatten ++ nonSpace acc.2 ++ nonSpace pieces.flatten) := by
    intro pieces
    induction pieces with
    | nil =>
        intro acc
        rw [List.flatten_nil, nonSpace_nil, List.append_nil]
        exact ⟨List.Sublist.refl _, fun _ => rfl⟩
    | cons piece pieces ih =>
        intro acc
        obtain ⟨hsub, heq⟩ := self.mergePiece_nonSpace acc piece
        obtain ⟨hrestSub, hrestEq⟩ := ih (self.mergePiece acc piece)
        rw [List.flatten_cons, nonSpace_append, ← List.append_assoc, List.foldl_cons]
        refine ⟨(hsub.append (List.Sublist.refl _)).trans hrestSub, fun h => ?_⟩
        rw [hrestEq h, heq h]
  rw [mergeWithOverlap, closed_nonSpace]
  exact hfold pieces ([], [])

/-! ## The default separators -/

/-- No line that is too long for a chunk has a full stop before a space. -/
def LongLinesKeepStops (limit : ℕ) (text : List Char) : Prop :=
  ∀ line ∈ splitOn ['\n'] 0 [] text, limit < line.length → ¬ ['.', ' '] <:+: line

theorem keeps_words (text : List Char) : self.Keeps [[' '], []] text := by
  intro _
  refine ⟨fun _ => rfl, ?_⟩
  intro part _ _ _
  refine ⟨fun _ => rfl, ?_⟩
  intro _ _ _
  trivial

theorem keeps_line_iff {line : List Char} (hlong : self.chunkSize < line.length) :
    self.Keeps [['.', ' '], [' '], []] line ↔ ¬ ['.', ' '] <:+: line := by
  rw [Keeps, forall_prop_of_true hlong]
  constructor
  · rintro ⟨hsep, -⟩ hinfix
    exact absurd (hsep hinfix) (by decide)
  · intro hnot
    refine ⟨fun hinfix => absurd hinfix hnot, ?_⟩
    intro part _ _
    exact keeps_words part

theorem keeps_default_iff (text : List Char) :
    self.Keeps defaultSeparators text ↔ LongLinesKeepStops self.chunkSize text := by
  constructor
  · intro hkeeps line hline hlong
    have hne : line ≠ [] := List.ne_nil_of_length_pos (by omega)
    obtain ⟨paragraph, hparagraph, hmem⟩ := (mem_lines_iff hne).mp hline
    have hle := length_le_of_mem_splitOn (List.cons_ne_nil _ _) hmem
    have hle' := length_le_of_mem_splitOn (List.cons_ne_nil _ _) hparagraph
    have hparagraphKeeps := (hkeeps (by omega)).2 paragraph hparagraph (by omega)
    exact (keeps_line_iff hlong).mp ((hparagraphKeeps (by omega)).2 line hmem hlong)
  · intro hstops _
    refine ⟨fun _ => rfl, ?_⟩
    intro paragraph hparagraph _ _
    refine ⟨fun _ => rfl, ?_⟩
    intro line hmem hlong
    have hne : line ≠ [] := List.ne_nil_of_length_pos (by omega)
    have hline := (mem_lines_iff hne).mpr ⟨paragraph, hparagraph, hmem⟩
    exact (keeps_line_iff hlong).mpr (hstops line hline hlong)

theorem split_nonSpace (hlast : [] ∈ self.separators) (text : List Char) :
    (self.Keeps self.separators (stripChars text) →
        (nonSpace text).Sublist (nonSpace (self.split text).flatten)) ∧
      (self.chunkOverlap = 0 →
        ((nonSpace text).Sublist (nonSpace (self.split text).flatten) ↔
          self.Keeps self.separators (stripChars text))) := by
  rw [split]
  by_cases hempty : stripChars text = []
  · have htext : nonSpace text = [] := by rw [← nonSpace_stripChars, hempty, nonSpace_nil]
    rw [if_pos hempty, htext, hempty]
    refine ⟨fun _ => List.Sublist.slnil, fun _ => iff_of_true List.Sublist.slnil ?_⟩
    apply (splitRecursive_nonSpace hlast []).2.mp
    rw [splitRecursive_short (Nat.zero_le _)]
    rfl
  · rw [if_neg hempty, ← nonSpace_stripChars text]
    obtain ⟨hsub, hkeeps⟩ := self.splitRecursive_nonSpace hlast (stripChars text)
    obtain ⟨hmerged, hzero⟩ := self.mergeWithOverlap_nonSpace
      (self.splitRecursive self.separators (stripChars text))
    refine ⟨fun h => ?_, fun h => ?_⟩
    · rw [← hkeeps.mpr h]
      exact hmerged
    · rw [hzero h, ← hkeeps]
      exact ⟨fun hback => hsub.antisymm hback, fun heq => heq ▸ List.Sublist.refl _⟩

end RecursiveCharacterChunker

/-- The chunks cover a text in which no line too long for a chunk has a full stop
before a space; where chunks do not overlap they cover no other text. -/
theorem chunks_cover (chunkSize chunkOverlap : ℕ) (h : chunkOverlap < chunkSize)
    (text : List Char) :
    (RecursiveCharacterChunker.LongLinesKeepStops chunkSize (stripChars text) →
      (nonSpace text).Sublist (nonSpace
        ((RecursiveCharacterChunker.mk chunkSize chunkOverlap defaultSeparators h).split
          text).flatten)) ∧
    (chunkOverlap = 0 →
      ((nonSpace text).Sublist (nonSpace
        ((RecursiveCharacterChunker.mk chunkSize chunkOverlap defaultSeparators h).split
          text).flatten) ↔
      RecursiveCharacterChunker.LongLinesKeepStops chunkSize (stripChars text))) := by
  have hsplit := (RecursiveCharacterChunker.mk chunkSize chunkOverlap defaultSeparators
    h).split_nonSpace nil_mem_defaultSeparators text
  rwa [RecursiveCharacterChunker.keeps_default_iff] at hsplit

/-- "aaaa. bbbb" in chunks of five characters. -/
def twoSentences : List Char := ['a', 'a', 'a', 'a', '.', ' ', 'b', 'b', 'b', 'b']

theorem chunks_cover_short :
    (nonSpace ['a', 'b', ' ', 'c', 'd', 'e']).Sublist (nonSpace
        ((RecursiveCharacterChunker.mk 4 1 defaultSeparators (by decide)).split
          ['a', 'b', ' ', 'c', 'd', 'e']).flatten) ∧
      1 < ((RecursiveCharacterChunker.mk 4 1 defaultSeparators (by decide)).split
        ['a', 'b', ' ', 'c', 'd', 'e']).length ∧
      ((nonSpace twoSentences).Sublist (nonSpace
          ((RecursiveCharacterChunker.mk 10 0 defaultSeparators (by decide)).split
            twoSentences).flatten) ↔
        RecursiveCharacterChunker.LongLinesKeepStops 10 (stripChars twoSentences)) :=
  ⟨(chunks_cover 4 1 (by decide) ['a', 'b', ' ', 'c', 'd', 'e']).1 (by
      unfold RecursiveCharacterChunker.LongLinesKeepStops
      decide),
    by decide,
    (chunks_cover 10 0 (by decide) twoSentences).2 rfl⟩

theorem chunks_lose_stop :
    ¬ ∀ (chunkSize chunkOverlap : ℕ) (h : chunkOverlap < chunkSize) (text : List Char),
      (nonSpace text).Sublist (nonSpace
        ((RecursiveCharacterChunker.mk chunkSize chunkOverlap defaultSeparators h).split
          text).flatten) := by
  intro hall
  have hlength := (hall 5 0 (by decide) twoSentences).length_le
  exact absurd hlength (by decide)

end Lour.Rag
