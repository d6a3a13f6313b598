import Lour.Rag.Chunking
/-!
# Splitting on a separator

The parts with the separator between them are the text, and there is more than one
part exactly where the separator occurs.
-/

namespace Lour.Rag

open Lour.Lib.Python

theorem splitOn_ne_nil (sep : List Char) (skip : ℕ) (current text : List Char) :
    splitOn sep skip current text ≠ [] := by
  induction text generalizing skip current with
  | nil => exact List.cons_ne_nil _ _
  | cons c cs ih =>
      cases skip with
      | succ skip => exact ih skip current
      | zero =>
          rw [splitOn]
          split
          next => exact List.cons_ne_nil _ _
          next => exact ih 0 (current ++ [c])

theorem intercalate_splitOn {sep : List Char} (hsep : sep ≠ []) (text : List Char) :
    ∀ skip current, skip ≤ text.length →
      sep.intercalate (splitOn sep skip current text) = current ++ text.drop skip := by
  have hpos : 0 < sep.length := List.length_pos_iff.mpr hsep
  induction text with
  | nil =>
      intro skip current hskip
      rw [splitOn, List.intercalate_singleton, List.drop_nil, List.append_nil]
  | cons c cs ih =>
      intro skip current hskip
      cases skip with
      | succ skip => exact ih skip current (Nat.le_of_succ_le_succ hskip)
      | zero =>
          rw [splitOn]
          split
          next hprefix =>
              obtain ⟨rest, hrest⟩ := List.isPrefixOf_iff_prefix.mp hprefix
              have hlength := congrArg List.length hrest
              rw [List.length_append, List.length_cons] at hlength
              have hdrop : (c :: cs).drop sep.length = cs.drop (sep.length - 1) := by
                conv_lhs => rw [← Nat.succ_pred_eq_of_pos hpos]
                rfl
              rw [List.intercalate_cons_of_ne_nil (splitOn_ne_nil sep _ _ _), ih _ _ (by omega),
                List.nil_append, ← hdrop, ← hrest, List.drop_left, List.drop_zero,
                List.append_assoc]
          next =>
              rw [ih 0 _ (Nat.zero_le _), List.drop_zero, List.drop_zero, List.append_assoc,
                List.singleton_append]

theorem intercalate_parts {sep : List Char} (hsep : sep ≠ []) (text : List Char) :
    sep.intercalate (splitOn sep 0 [] text) = text :=
  intercalate_splitOn hsep text 0 [] (Nat.zero_le _)

theorem flatten_sublist_intercalate (sep : List Char) (parts : List (List Char)) :
    parts.flatten.Sublist (sep.intercalate parts) := by
  induction parts with
  | nil => exact List.Sublist.slnil
  | cons part parts ih =>
      cases parts with
      | nil => rw [List.flatten_singleton, List.intercalate_singleton]
      | cons other parts =>
          rw [List.intercalate_cons_cons, List.flatten_cons, List.append_assoc]
          exact (List.Sublist.refl _).append (ih.trans (List.sublist_append_right ..))

theorem infix_intercalate_of_mem (sep : List Char) {part : List Char} {parts : List (List Char)}
    (h : part ∈ parts) : part <:+: sep.intercalate parts := by
  induction parts with
  | nil => exact absurd h List.not_mem_nil
  | cons first parts ih =>
      cases parts with
      | nil =>
          refine ⟨[], [], ?_⟩
          rw [List.mem_singleton.mp h, List.intercalate_singleton, List.nil_append,
            List.append_nil]
      | cons other parts =>
          rw [List.intercalate_cons_cons]
          rcases List.mem_cons.mp h with rfl | hrest
          · rw [List.append_assoc]
            exact (List.prefix_append ..).isInfix
          · exact (ih hrest).trans (List.suffix_append ..).isInfix

theorem infix_of_mem_splitOn {sep text part : List Char} (hsep : sep ≠ [])
    (h : part ∈ splitOn sep 0 [] text) : part <:+: text := by
  have hinfix := infix_intercalate_of_mem sep h
  rwa [intercalate_parts hsep] at hinfix

theorem length_le_of_mem_splitOn {sep text part : List Char} (hsep : sep ≠ [])
    (h : part ∈ splitOn sep 0 [] text) : part.length ≤ text.length :=
  (infix_of_mem_splitOn hsep h).length_le

theorem splitOn_of_not_isInfix {sep : List Char} {text : List Char} (h : ¬ sep <:+: text)
    (current : List Char) : splitOn sep 0 current text = [current ++ text] := by
  induction text generalizing current with
  | nil => rw [splitOn, List.append_nil]
  | cons c cs ih =>
      rw [List.infix_cons_iff, not_or] at h
      have hprefix : ¬ sep.isPrefixOf (c :: cs) = true := by
        rw [List.isPrefixOf_iff_prefix]
        exact h.1
      rw [splitOn, if_neg hprefix, ih h.2, List.append_assoc, List.singleton_append]

theorem one_lt_length_splitOn {sep text : List Char} (h : sep <:+: text)
    (hsep : sep ≠ []) (current : List Char) : 1 < (splitOn sep 0 current text).length := by
  induction text generalizing current with
  | nil => exact absurd (List.infix_nil.mp h) hsep
  | cons c cs ih =>
      rw [splitOn]
      split
      next =>
          have hpos := List.length_pos_iff.mpr (splitOn_ne_nil sep (sep.length - 1) [] cs)
          rw [List.length_cons]
          omega
      next hprefix =>
          apply ih
          rcases List.infix_cons_iff.mp h with hhead | htail
          · exact absurd (List.isPrefixOf_iff_prefix.mpr hhead) hprefix
          · exact htail

/-- The scan for a separator of one character. -/
theorem splitOn_char (c d : Char) (current cs : List Char) :
    splitOn [c] 0 current (d :: cs) =
      if d = c then current :: splitOn [c] 0 [] cs else splitOn [c] 0 (current ++ [d]) cs := by
  have hprefix : [c].isPrefixOf (d :: cs) = decide (d = c) := by
    rw [Bool.eq_iff_iff, List.isPrefixOf_iff_prefix, List.singleton_prefix_cons_iff]
    simp [eq_comm]
  rw [splitOn, hprefix]
  by_cases hd : d = c
  · rw [if_pos (decide_eq_true hd), if_pos hd]
    rfl
  · rw [if_neg (by simp [hd]), if_neg hd]

/-- The parts on both sides of a separator of one character. -/
theorem splitOn_append_char (c : Char) (front back current : List Char) :
    splitOn [c] 0 current (front ++ c :: back) =
      splitOn [c] 0 current front ++ splitOn [c] 0 [] back := by
  induction front generalizing current with
  | nil =>
      rw [List.nil_append, splitOn_char, if_pos rfl]
      rfl
  | cons d front ih =>
      rw [List.cons_append, splitOn_char, splitOn_char]
      by_cases hd : d = c
      · rw [if_pos hd, if_pos hd, ih, List.cons_append]
      · rw [if_neg hd, if_neg hd, ih]

/-- The lines of a text are those of its paragraphs, but for empty ones. -/
theorem mem_splitOn_paragraphs {line : List Char} (hline : line ≠ []) (c : Char)
    (paragraphs : List (List Char)) (hne : paragraphs ≠ []) :
    line ∈ splitOn [c] 0 [] ([c, c].intercalate paragraphs) ↔
      ∃ paragraph ∈ paragraphs, line ∈ splitOn [c] 0 [] paragraph := by
  induction paragraphs with
  | nil => exact absurd rfl hne
  | cons paragraph rest ih =>
      cases rest with
      | nil => simp
      | cons other rest =>
          have hjoined : [c, c].intercalate (paragraph :: other :: rest) =
              paragraph ++ c :: ([] ++ c :: [c, c].intercalate (other :: rest)) := by
            rw [List.intercalate_cons_cons, List.append_assoc]
            rfl
          have hempty : line ∉ splitOn [c] 0 [] [] := by
            rw [splitOn, List.mem_singleton]
            exact hline
          rw [hjoined, splitOn_append_char, splitOn_append_char, List.mem_append, List.mem_append,
            or_iff_right hempty, ih (List.cons_ne_nil _ _)]
          exact (List.exists_mem_cons_iff (fun p => line ∈ splitOn [c] 0 [] p) _ _).symm

/-- The lines of a text, in its paragraphs. -/
theorem mem_lines_iff {line : List Char} (hline : line ≠ []) {c : Char} {text : List Char} :
    line ∈ splitOn [c] 0 [] text ↔
      ∃ paragraph ∈ splitOn [c, c] 0 [] text, line ∈ splitOn [c] 0 [] paragraph := by
  have h := mem_splitOn_paragraphs hline c (splitOn [c, c] 0 [] text) (splitOn_ne_nil _ 0 [] text)
  rwa [intercalate_parts (List.cons_ne_nil _ _)] at h

namespace RecursiveCharacterChunker

variable {self : RecursiveCharacterChunker}

/-! ## The pieces of a text -/

/-- `list(part) if sep == "" else text.split(sep)`. -/
def partsOf (sep text : List Char) : List (List Char) :=
  if sep = [] then text.map fun c => [c] else splitOn sep 0 [] text

/-- The pieces of one part. -/
def piecesOf (self : RecursiveCharacterChunker) (rest : List (List Char)) (part : List Char) :
    List (List Char) :=
  if part.length ≤ self.chunkSize then short part else self.splitRecursive rest part

theorem splitRecursive_short {separators : List (List Char)} {text : List Char}
    (h : text.length ≤ self.chunkSize) : self.splitRecursive separators text = short text := by
  cases separators with
  | nil => rw [splitRecursive, if_pos h]
  | cons sep rest => rw [splitRecursive, if_pos h]

theorem splitRecursive_long {sep : List Char} {rest : List (List Char)} {text : List Char}
    (h : self.chunkSize < text.length) :
    self.splitRecursive (sep :: rest) text = (partsOf sep text).flatMap (self.piecesOf rest) := by
  rw [splitRecursive, if_neg (Nat.not_le_of_lt h)]
  rfl

/-- A part that is split again has more separators to be split on: single characters
are short. -/
theorem nil_mem_of_long {sep : List Char} {rest : List (List Char)} {text part : List Char}
    (hlast : [] ∈ sep :: rest) (hmem : part ∈ partsOf sep text)
    (hlong : self.chunkSize < part.length) : [] ∈ rest := by
  rw [partsOf] at hmem
  by_cases hsep : sep = []
  · rw [if_pos hsep] at hmem
    obtain ⟨c, -, rfl⟩ := List.mem_map.mp hmem
    have hlt := self.overlap_lt
    rw [List.length_singleton] at hlong
    omega
  · exact (List.mem_cons.mp hlast).resolve_left fun heq => hsep heq.symm

theorem infix_of_mem_partsOf {sep text part : List Char} (h : part ∈ partsOf sep text) :
    part <:+: text := by
  rw [partsOf] at h
  split at h
  next =>
      obtain ⟨c, hc, rfl⟩ := List.mem_map.mp h
      obtain ⟨front, back, rfl⟩ := List.append_of_mem hc
      exact ⟨front, back, by rw [List.append_assoc, List.singleton_append]⟩
  next hsep => exact infix_of_mem_splitOn hsep h

theorem mem_short {text piece : List Char} (h : piece ∈ short text) :
    piece = text ∧ Visible text := by
  rw [short] at h
  split at h
  next => exact absurd h List.not_mem_nil
  next hblank =>
      have hvisible := blankChars_eq_false.mp (Bool.eq_false_of_not_eq_true hblank)
      exact ⟨List.mem_singleton.mp h, hvisible⟩

/-- With single characters as the last resort the windows are never reached: every
piece is a visible stretch of the text and short enough. -/
theorem mem_splitRecursive {separators : List (List Char)} (hlast : [] ∈ separators)
    {text piece : List Char} (h : piece ∈ self.splitRecursive separators text) :
    Visible piece ∧ piece.length ≤ self.chunkSize ∧ piece <:+: text := by
  induction separators generalizing text with
  | nil => exact absurd hlast List.not_mem_nil
  | cons sep rest ih =>
      by_cases hlong : self.chunkSize < text.length
      · rw [splitRecursive_long hlong] at h
        obtain ⟨part, hpart, hinner⟩ := List.mem_flatMap.mp h
        have hinfix := infix_of_mem_partsOf hpart
        rw [piecesOf] at hinner
        split at hinner
        next hlength =>
            obtain ⟨rfl, hvisible⟩ := mem_short hinner
            exact ⟨hvisible, hlength, hinfix⟩
        next hover =>
            have hrest := nil_mem_of_long hlast hpart (Nat.lt_of_not_le hover)
            obtain ⟨hvisible, hlength, hpiece⟩ := ih hrest hinner
            exact ⟨hvisible, hlength, hpiece.trans hinfix⟩
      · rw [splitRecursive_short (Nat.le_of_not_lt hlong)] at h
        obtain ⟨rfl, hvisible⟩ := mem_short h
        exact ⟨hvisible, Nat.le_of_not_lt hlong, List.infix_rfl⟩

theorem mem_split {text chunk : List Char} (h : chunk ∈ self.split text) :
    chunk ∈ self.mergeWithOverlap (self.splitRecursive self.separators (stripChars text)) := by
  rw [split] at h
  split at h
  next => exact absurd h List.not_mem_nil
  next => exact h

end RecursiveCharacterChunker

end Lour.Rag
