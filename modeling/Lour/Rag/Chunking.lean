import Lour.Lib.Python
/-!
# The chunkers

A text is the list of its characters.  The numeric part of semantic chunking (the
distances of neighbouring sentences and their percentile) is numpy's.
-/

namespace Lour.Rag

open Lour.Lib.Python

/-- `text.split(sep)` for a separator that is not empty; `skip` counts the
characters of a separator still to be passed over. -/
def splitOn (sep : List Char) : ℕ → List Char → List Char → List (List Char)
  | _, current, [] => [current]
  | skip + 1, current, _ :: cs => splitOn sep skip current cs
  | 0, current, c :: cs =>
      if sep.isPrefixOf (c :: cs) then current :: splitOn sep (sep.length - 1) [] cs
      else splitOn sep 0 (current ++ [c]) cs

def blankChars (cs : List Char) : Bool := cs.all isSpace

def defaultSeparators : List (List Char) := [['\n', '\n'], ['\n'], ['.', ' '], [' '], []]

structure RecursiveCharacterChunker where
  chunkSize : ℕ := 1000
  chunkOverlap : ℕ := 150
  separators : List (List Char) := defaultSeparators
  overlap_lt : chunkOverlap < chunkSize

namespace RecursiveCharacterChunker

variable (self : RecursiveCharacterChunker)

def short (text : List Char) : List (List Char) := if blankChars text then [] else [text]

def windows (text : List Char) : List (List Char) :=
  (List.range ((text.length + self.chunkSize - 1) / self.chunkSize)).map fun i =>
    (text.drop (i * self.chunkSize)).take self.chunkSize

def splitRecursive : List (List Char) → List Char → List (List Char)
  | [], text => if text.length ≤ self.chunkSize then short text else self.windows text
  | sep :: rest, text =>
      if text.length ≤ self.chunkSize then short text
      else
        let parts := if sep = [] then text.map fun c => [c] else splitOn sep 0 [] text
        parts.flatMap fun part =>
          if part.length ≤ self.chunkSize then short part else splitRecursive rest part

/-- `f"{current} {piece}".strip() if current else piece`. -/
def candidate (current piece : List Char) : List Char :=
  if current = [] then piece else stripChars (current ++ ' ' :: piece)

/-- The chunks with the one that was put together. -/
def closed (chunks : List (List Char)) (current : List Char) : List (List Char) :=
  if current = [] then chunks else chunks ++ [current]

/-- The next chunk begins with the end of the last one, where that fits. -/
def overlapped (chunks : List (List Char)) (piece : List Char) : List Char :=
  match if self.chunkOverlap = 0 then none else chunks.getLast? with
  | some last =>
      let tail := last.drop (last.length - self.chunkOverlap)
      let joined := stripChars (tail ++ ' ' :: piece)
      if self.chunkSize < joined.length then piece else joined
  | none => piece

/-- One round of the merging loop over the pieces: the chunks so far, and the one
that is being put together. -/
def mergePiece (acc : List (List Char) × List Char) (piece : List Char) :
    List (List Char) × List Char :=
  let (chunks, current) := acc
  if (candidate current piece).length ≤ self.chunkSize then (chunks, candidate current piece)
  else (closed chunks current, self.overlapped (closed chunks current) piece)

def mergeWithOverlap (pieces : List (List Char)) : List (List Char) :=
  let (chunks, current) := pieces.foldl self.mergePiece ([], [])
  closed chunks current

def split (text : List Char) : List (List Char) :=
  let text := stripChars text
  if text = [] then [] else self.mergeWithOverlap (self.splitRecursive self.separators text)

end RecursiveCharacterChunker

/-! ## `SemanticChunker` -/

/-- Where the scan of the sentence pattern stands: in a piece, or in the gap after
the end of a sentence or between paragraphs. -/
inductive SentenceScan where
  | piece
  | spaces
  | newlines

def isSentenceEnd (c : Char) : Bool := c == '.' || c == '!' || c == '?'

/-- `_SENTENCE_RE.split`, for `(?<=[.!?])\s+|\n{2,}`. -/
def sentencePieces : SentenceScan → List Char → List Char → List (List Char)
  | _, current, [] => [current]
  | .piece, current, c :: cs =>
      if isSpace c && current.getLast?.any isSentenceEnd then
        current :: sentencePieces .spaces [] cs
      else if c = '\n' && cs.head? = some '\n' then current :: sentencePieces .newlines [] cs
      else sentencePieces .piece (current ++ [c]) cs
  | .spaces, current, c :: cs =>
      if isSpace c then sentencePieces .spaces current cs
      else sentencePieces .piece (current ++ [c]) cs
  | .newlines, current, c :: cs =>
      if c = '\n' then sentencePieces .newlines current cs
      else sentencePieces .piece (current ++ [c]) cs

def splitSentences (text : List Char) : List (List Char) :=
  ((sentencePieces .piece [] text).filter fun s => !blankChars s).map stripChars

structure SemanticChunker (V R : Type) where
  /-- `none` from the embedder is an exception. -/
  embedder : Option (List (List Char) → Option (List V))
  consecutiveDistances : List V → List R
  percentile : List R → R
  maxChunkChars : ℕ := 2000
  minSentences : ℕ := 4
  maxChunkChars_pos : 0 < maxChunkChars
  fallback : Option RecursiveCharacterChunker := none

theorem maxChunkChars_default_pos : 0 < 2000 := by decide

/-- The fallback that is built where none is given. -/
def defaultFallback (maxChunkChars : ℕ) (h : 0 < maxChunkChars) : RecursiveCharacterChunker where
  chunkSize := maxChunkChars
  chunkOverlap := min 150 (maxChunkChars / 4)
  overlap_lt := by omega

namespace SemanticChunker

variable {V R : Type} [LT R] [DecidableLT R] (self : SemanticChunker V R)

def fallbackChunker : RecursiveCharacterChunker :=
  self.fallback.getD (defaultFallback self.maxChunkChars self.maxChunkChars_pos)

/-- The loop over the distances; `none` where there are more than sentences. -/
def groupFrom (threshold : R) : List (List Char) → List (List Char) → List R →
    Option (List (List Char))
  | current, _, [] => some [[' '].intercalate current]
  | _, [], _ :: _ => none
  | current, sentence :: sentences, dist :: distances =>
      if threshold < dist then
        (groupFrom threshold [sentence] sentences distances).map
          fun groups => [' '].intercalate current :: groups
      else groupFrom threshold (current ++ [sentence]) sentences distances

def groupByBreakpoints (sentences : List (List Char)) (distances : List R) (threshold : R) :
    Option (List (List Char)) :=
  match sentences with
  | [] => none
  | sentence :: sentences => groupFrom threshold [sentence] sentences distances

def enforceMaxSize (chunks : List (List Char)) : List (List Char) :=
  chunks.flatMap fun chunk =>
    if chunk.length ≤ self.maxChunkChars then [chunk] else self.fallbackChunker.split chunk

/-- `none` where it raises. -/
def split (text : List Char) : Option (List (List Char)) :=
  let text := stripChars text
  if text = [] then some []
  else
    let sentences := splitSentences text
    match self.embedder with
    | none => some (self.fallbackChunker.split text)
    | some embed =>
        if sentences.length < self.minSentences then some (self.fallbackChunker.split text)
        else
          match embed sentences with
          | none => some (self.fallbackChunker.split text)
          | some vectors =>
              let distances := self.consecutiveDistances vectors
              if distances.isEmpty then some (self.fallbackChunker.split text)
              else
                (groupByBreakpoints sentences distances (self.percentile distances)).map
                  self.enforceMaxSize

end SemanticChunker

/-! ## A visible character gets into some chunk -/

def Visible (cs : List Char) : Prop := ∃ c ∈ cs, isSpace c = false

/-- The last character is no whitespace. -/
def EndsVisible (cs : List Char) : Prop := ∃ front c, cs = front ++ [c] ∧ isSpace c = false

theorem Visible.ne_nil {cs : List Char} (h : Visible cs) : cs ≠ [] := by
  obtain ⟨c, hc, -⟩ := h
  exact List.ne_nil_of_mem hc

theorem EndsVisible.visible {cs : List Char} (h : EndsVisible cs) : Visible cs := by
  obtain ⟨front, c, rfl, hc⟩ := h
  exact ⟨c, List.mem_append_right _ (List.mem_singleton_self c), hc⟩

theorem EndsVisible.tail {c : Char} {cs : List Char} (h : EndsVisible (c :: cs)) (hne : cs ≠ []) :
    EndsVisible cs := by
  obtain ⟨front, d, heq, hd⟩ := h
  cases front with
  | nil =>
      cases heq
      exact absurd rfl hne
  | cons b front =>
      cases heq
      exact ⟨front, d, rfl, hd⟩

theorem blankChars_eq_false {cs : List Char} : blankChars cs = false ↔ Visible cs := by
  simp [blankChars, Visible]

theorem endsVisible_stripChars {cs : List Char} (h : stripChars cs ≠ []) :
    EndsVisible (stripChars cs) := by
  refine ⟨(stripChars cs).dropLast, (stripChars cs).getLast h, ?_, stripChars_last h⟩
  exact (List.dropLast_append_getLast h).symm

theorem Visible.stripChars {cs : List Char} (h : Visible cs) : EndsVisible (stripChars cs) := by
  apply endsVisible_stripChars
  intro hnil
  obtain ⟨c, hc, hvisible⟩ := h
  rw [stripChars_eq_nil_iff.mp hnil c hc] at hvisible
  cases hvisible

section Recursive

variable {self : RecursiveCharacterChunker}

/-- The separator is empty or ends in whitespace. -/
def Breaks (sep : List Char) : Prop := ∀ front c, sep = front ++ [c] → isSpace c = true

/-- A part of a text that ends visibly does so too: the text does not end in a
separator. -/
theorem splitOn_endsVisible {sep : List Char} (hsep : Breaks sep) (hne : sep ≠ [])
    (text : List Char) :
    ∀ skip current, EndsVisible text → skip < text.length →
      ∃ part ∈ splitOn sep skip current text, EndsVisible part := by
  induction text with
  | nil => exact fun skip current _ hskip => absurd hskip (Nat.not_lt_zero _)
  | cons c cs ih =>
      intro skip current hends hskip
      cases skip with
      | succ skip =>
          have hlt : skip < cs.length := Nat.lt_of_succ_lt_succ hskip
          exact ih skip current (hends.tail (List.ne_nil_of_length_pos (by omega))) hlt
      | zero =>
          rw [splitOn]
          split
          next hprefix =>
              obtain ⟨rest, hrest⟩ := List.isPrefixOf_iff_prefix.mp hprefix
              have hrestNe : rest ≠ [] := by
                rintro rfl
                obtain ⟨front, d, heq, hd⟩ := hends
                rw [List.append_nil] at hrest
                rw [hsep front d (hrest.trans heq)] at hd
                cases hd
              have hlength : sep.length + rest.length = cs.length + 1 := by
                rw [← List.length_append, hrest, List.length_cons]
              have hsepPos : 0 < sep.length := List.length_pos_iff.mpr hne
              have hrestPos : 0 < rest.length := List.length_pos_iff.mpr hrestNe
              have hcs : cs ≠ [] := List.ne_nil_of_length_pos (by omega)
              obtain ⟨part, hpart, hvisible⟩ := ih (sep.length - 1) [] (hends.tail hcs) (by omega)
              exact ⟨part, List.mem_cons_of_mem _ hpart, hvisible⟩
          next =>
              by_cases hcs : cs = []
              · subst hcs
                refine ⟨current ++ [c], List.mem_singleton_self _, current, c, rfl, ?_⟩
                obtain ⟨d, hd, hvisible⟩ := hends.visible
                rw [List.mem_singleton.mp hd] at hvisible
                exact hvisible
              · exact ih 0 (current ++ [c]) (hends.tail hcs) (List.length_pos_iff.mpr hcs)

theorem short_visible {text : List Char} (h : Visible text) :
    RecursiveCharacterChunker.short text = [text] := by
  rw [RecursiveCharacterChunker.short, blankChars_eq_false.mpr h]
  rfl

/-- With single characters as the last resort, a text that ends visibly has a
visible piece. -/
theorem splitRecursive_visible {separators : List (List Char)} (hlast : [] ∈ separators)
    (hbreaks : ∀ sep ∈ separators, Breaks sep) {text : List Char} (h : EndsVisible text) :
    ∃ piece ∈ self.splitRecursive separators text, Visible piece := by
  have hshort : ∀ text : List Char, EndsVisible text →
      ∃ piece ∈ RecursiveCharacterChunker.short text, Visible piece := by
    intro text htext
    rw [short_visible htext.visible]
    exact ⟨text, List.mem_singleton_self _, htext.visible⟩
  induction separators generalizing text with
  | nil => exact absurd hlast List.not_mem_nil
  | cons sep rest ih =>
      rw [RecursiveCharacterChunker.splitRecursive]
      split
      next => exact hshort text h
      next =>
          simp only [List.mem_flatMap]
          by_cases hsep : sep = []
          · obtain ⟨c, hc, hvisible⟩ := h.visible
            have hone : [c].length ≤ self.chunkSize := by
              have hlt := self.overlap_lt
              rw [List.length_singleton]
              omega
            refine ⟨[c], ⟨[c], ?_, ?_⟩, c, List.mem_singleton_self c, hvisible⟩
            · rw [if_pos hsep]
              exact List.mem_map.mpr ⟨c, hc, rfl⟩
            · rw [if_pos hone, short_visible ⟨c, List.mem_singleton_self c, hvisible⟩]
              exact List.mem_singleton_self _
          · have hpositive : 0 < text.length := List.length_pos_iff.mpr h.visible.ne_nil
            obtain ⟨part, hpart, hends⟩ :=
              splitOn_endsVisible (hbreaks sep List.mem_cons_self) hsep text 0 [] h hpositive
            have hinner : ∃ piece ∈ (if part.length ≤ self.chunkSize then
                RecursiveCharacterChunker.short part else self.splitRecursive rest part),
                Visible piece := by
              split
              · exact hshort part hends
              · apply ih _ (fun sep hmem => hbreaks sep (List.mem_cons_of_mem _ hmem)) hends
                rcases List.mem_cons.mp hlast with heq | hmem
                · exact absurd heq.symm hsep
                · exact hmem
            obtain ⟨piece, hpiece, hvisible⟩ := hinner
            refine ⟨piece, ⟨part, ?_, hpiece⟩, hvisible⟩
            rw [if_neg hsep]
            exact hpart

/-- A visible character has got into a chunk, or into the one being put together. -/
def Reached (acc : List (List Char) × List Char) : Prop :=
  (∃ chunk ∈ acc.1, Visible chunk) ∨ Visible acc.2

theorem Visible.joined {front back : List Char} (h : Visible front ∨ Visible back) :
    Visible (Lib.Python.stripChars (front ++ ' ' :: back)) := by
  apply EndsVisible.visible
  apply Visible.stripChars
  rcases h with ⟨c, hc, hvisible⟩ | ⟨c, hc, hvisible⟩
  · exact ⟨c, List.mem_append_left _ hc, hvisible⟩
  · exact ⟨c, List.mem_append_right _ (List.mem_cons_of_mem _ hc), hvisible⟩

theorem candidate_visible {current piece : List Char} (h : Visible current ∨ Visible piece) :
    Visible (RecursiveCharacterChunker.candidate current piece) := by
  unfold RecursiveCharacterChunker.candidate
  split
  next hnil =>
      rcases h with h | h
      · exact absurd hnil h.ne_nil
      · exact h
  next => exact Visible.joined h

theorem overlapped_visible {chunks : List (List Char)} {piece : List Char} (h : Visible piece) :
    Visible (self.overlapped chunks piece) := by
  unfold RecursiveCharacterChunker.overlapped
  split
  next =>
      dsimp only
      split
      · exact h
      · exact Visible.joined (.inr h)
  next => exact h

theorem Reached.closed {chunks : List (List Char)} {current : List Char}
    (h : Reached (chunks, current)) :
    ∃ chunk ∈ RecursiveCharacterChunker.closed chunks current, Visible chunk := by
  unfold RecursiveCharacterChunker.closed
  rcases h with ⟨chunk, hchunk, hvisible⟩ | hvisible
  · refine ⟨chunk, ?_, hvisible⟩
    split
    · exact hchunk
    · exact List.mem_append_left _ hchunk
  · rw [if_neg hvisible.ne_nil]
    exact ⟨current, List.mem_append_right _ (List.mem_singleton_self _), hvisible⟩

theorem mergePiece_reached {acc : List (List Char) × List Char} {piece : List Char}
    (h : Reached acc ∨ Visible piece) : Reached (self.mergePiece acc piece) := by
  unfold RecursiveCharacterChunker.mergePiece
  dsimp only
  split
  next =>
      rcases h with (⟨chunk, hchunk, hvisible⟩ | hvisible) | hvisible
      · exact .inl ⟨chunk, hchunk, hvisible⟩
      · exact .inr (candidate_visible (.inl hvisible))
      · exact .inr (candidate_visible (.inr hvisible))
  next =>
      rcases h with hreached | hvisible
      · exact .inl hreached.closed
      · exact .inr (overlapped_visible hvisible)

theorem mergeWithOverlap_visible {pieces : List (List Char)} (h : ∃ piece ∈ pieces, Visible piece) :
    ∃ chunk ∈ self.mergeWithOverlap pieces, Visible chunk := by
  have hfold : ∀ (pieces : List (List Char)) (acc : List (List Char) × List Char),
      (Reached acc ∨ ∃ piece ∈ pieces, Visible piece) →
        Reached (pieces.foldl self.mergePiece acc) := by
    intro pieces
    induction pieces with
    | nil =>
        rintro acc (hacc | ⟨piece, hpiece, -⟩)
        · exact hacc
        · exact absurd hpiece List.not_mem_nil
    | cons piece pieces ih =>
        intro acc hacc
        apply ih
        rcases hacc with hacc | ⟨found, hfound, hvisible⟩
        · exact .inl (mergePiece_reached (.inl hacc))
        · rcases List.mem_cons.mp hfound with rfl | hfound
          · exact .inl (mergePiece_reached (.inr hvisible))
          · exact .inr ⟨found, hfound, hvisible⟩
  exact (hfold pieces ([], []) (.inr h)).closed

theorem split_visible (hlast : [] ∈ self.separators) (hbreaks : ∀ sep ∈ self.separators, Breaks sep)
    {text : List Char} (h : Visible text) : ∃ chunk ∈ self.split text, Visible chunk := by
  have hends := h.stripChars
  have hne : Lib.Python.stripChars text ≠ [] := hends.visible.ne_nil
  simp only [RecursiveCharacterChunker.split, if_neg hne]
  exact mergeWithOverlap_visible (splitRecursive_visible hlast hbreaks hends)

end Recursive

theorem defaultFallback_visible (maxChunkChars : ℕ) (hpos : 0 < maxChunkChars) {text : List Char}
    (h : Visible text) : ∃ chunk ∈ (defaultFallback maxChunkChars hpos).split text,
      Visible chunk := by
  have hbreaks : ∀ sep ∈ defaultSeparators, Breaks sep := by
    intro sep hsep front c heq
    have hlast : sep.getLast? = some c := by rw [heq, List.getLast?_concat]
    have hspace : ∀ sep ∈ defaultSeparators, ∀ c ∈ sep.getLast?, isSpace c = true := by
      simpa [defaultSeparators] using ⟨by rfl, by rfl⟩
    exact hspace sep hsep c hlast
  have hempty : [] ∈ defaultSeparators := by simp [defaultSeparators]
  exact split_visible hempty hbreaks h

section Semantic

variable {V R : Type} [LT R] [DecidableLT R] {self : SemanticChunker V R}

/-- A character goes on with the piece, or it is whitespace: in a gap, or the first of one. -/
theorem sentencePieces_cons (scan : SentenceScan) (current : List Char) (c : Char)
    (cs : List Char) :
    sentencePieces scan current (c :: cs) = sentencePieces .piece (current ++ [c]) cs ∨
      isSpace c = true ∧
        sentencePieces scan current (c :: cs) = sentencePieces scan current cs ∨
      isSpace c = true ∧ ∃ gap,
        sentencePieces scan current (c :: cs) = current :: sentencePieces gap [] cs := by
  cases scan with
  | piece =>
      rw [sentencePieces]
      split
      next hend => exact .inr (.inr ⟨(Bool.and_eq_true_iff.mp hend).1, .spaces, rfl⟩)
      next =>
          split
          next hbreak =>
              have hnewline : c = '\n' := by simpa using (Bool.and_eq_true_iff.mp hbreak).1
              subst hnewline
              exact .inr (.inr ⟨rfl, .newlines, rfl⟩)
          next => exact .inl rfl
  | spaces =>
      rw [sentencePieces]
      split
      next hspace => exact .inr (.inl ⟨hspace, rfl⟩)
      next => exact .inl rfl
  | newlines =>
      rw [sentencePieces]
      split
      next hnewline =>
          subst hnewline
          exact .inr (.inl ⟨rfl, rfl⟩)
      next => exact .inl rfl

theorem sentencePieces_visible (text : List Char) :
    ∀ scan current, Visible current ∨ Visible text →
      ∃ piece ∈ sentencePieces scan current text, Visible piece := by
  induction text with
  | nil =>
      rintro scan current (h | ⟨c, hc, -⟩)
      · exact ⟨current, by cases scan <;> exact List.mem_singleton_self _, h⟩
      · exact absurd hc List.not_mem_nil
  | cons c cs ih =>
      intro scan current h
      -- a character goes on with the piece, or it is whitespace and dropped
      have hpush : Visible (current ++ [c]) ∨ Visible cs := by
        rcases h with ⟨d, hd, hvisible⟩ | ⟨d, hd, hvisible⟩
        · exact .inl ⟨d, List.mem_append_left _ hd, hvisible⟩
        · rcases List.mem_cons.mp hd with rfl | hd
          · exact .inl ⟨d, List.mem_append_right _ (List.mem_singleton_self d), hvisible⟩
          · exact .inr ⟨d, hd, hvisible⟩
      have hdrop : isSpace c = true → Visible current ∨ Visible cs := by
        intro hspace
        rcases h with h | ⟨d, hd, hvisible⟩
        · exact .inl h
        · rcases List.mem_cons.mp hd with rfl | hd
          · rw [hspace] at hvisible
            cases hvisible
          · exact .inr ⟨d, hd, hvisible⟩
      rcases sentencePieces_cons scan current c cs with heq | ⟨hspace, heq⟩ | ⟨hspace, gap, heq⟩
      · rw [heq]
        exact ih .piece (current ++ [c]) hpush
      · rw [heq]
        exact ih scan current (hdrop hspace)
      · rw [heq]
        rcases hdrop hspace with h | h
        · exact ⟨current, List.mem_cons_self, h⟩
        · obtain ⟨piece, hpiece, hvisible⟩ := ih gap [] (.inr h)
          exact ⟨piece, List.mem_cons_of_mem _ hpiece, hvisible⟩

theorem mem_splitSentences {text sentence : List Char} (h : sentence ∈ splitSentences text) :
    Visible sentence := by
  obtain ⟨piece, hpiece, rfl⟩ := List.mem_map.mp h
  have hblank := (List.mem_filter.mp hpiece).2
  rw [Bool.not_eq_true'] at hblank
  exact (blankChars_eq_false.mp hblank).stripChars.visible

theorem splitSentences_ne_nil {text : List Char} (h : Visible text) : splitSentences text ≠ [] := by
  obtain ⟨piece, hpiece, hvisible⟩ := sentencePieces_visible text .piece [] (.inr h)
  apply List.ne_nil_of_mem
  apply List.mem_map_of_mem
  rw [List.mem_filter, blankChars_eq_false.mpr hvisible]
  exact ⟨hpiece, rfl⟩

theorem join_visible {group : List (List Char)} (h : ∃ sentence ∈ group, Visible sentence) :
    Visible ([' '].intercalate group) := by
  obtain ⟨sentence, hsentence, c, hc, hvisible⟩ := h
  refine ⟨c, ?_, hvisible⟩
  induction group with
  | nil => exact absurd hsentence List.not_mem_nil
  | cons first rest ih =>
      rcases List.mem_cons.mp hsentence with rfl | hrest
      · cases rest with
        | nil => rwa [List.intercalate_singleton]
        | cons second rest =>
            rw [List.intercalate_cons_cons]
            exact List.mem_append_left _ (List.mem_append_left _ hc)
      · rw [List.intercalate_cons_of_ne_nil (List.ne_nil_of_mem hrest)]
        exact List.mem_append_right _ (ih hrest)

/-- The group being put together becomes part of the groups. -/
theorem groupFrom_visible {threshold : R} (sentences : List (List Char)) :
    ∀ (current : List (List Char)) (distances : List R) groups,
      (∃ sentence ∈ current, Visible sentence) →
      SemanticChunker.groupFrom threshold current sentences distances = some groups →
      ∃ group ∈ groups, Visible group := by
  induction sentences with
  | nil =>
      intro current distances groups hcurrent h
      cases distances with
      | nil =>
          cases h
          exact ⟨_, List.mem_singleton_self _, join_visible hcurrent⟩
      | cons dist distances => cases h
  | cons sentence sentences ih =>
      intro current distances groups hcurrent h
      cases distances with
      | nil =>
          cases h
          exact ⟨_, List.mem_singleton_self _, join_visible hcurrent⟩
      | cons dist distances =>
          rw [SemanticChunker.groupFrom] at h
          split at h
          · obtain ⟨rest, -, rfl⟩ := Option.map_eq_some_iff.mp h
            exact ⟨_, List.mem_cons_self, join_visible hcurrent⟩
          · obtain ⟨found, hfound, hvisible⟩ := hcurrent
            exact ih (current ++ [sentence]) distances groups
              ⟨found, List.mem_append_left _ hfound, hvisible⟩ h

/-- With the default fallback a text that is not blank has a chunk that is not. -/
theorem semanticSplit_visible (hfallback : self.fallback = none) {text : List Char}
    {chunks : List (List Char)} (h : Visible text) (hsplit : self.split text = some chunks) :
    ∃ chunk ∈ chunks, Visible chunk := by
  have hends := h.stripChars
  have hdefault : ∀ text, Visible text →
      ∃ chunk ∈ self.fallbackChunker.split text, Visible chunk := by
    intro text htext
    rw [SemanticChunker.fallbackChunker, hfallback]
    exact defaultFallback_visible self.maxChunkChars self.maxChunkChars_pos htext
  have hgiveUp : some (self.fallbackChunker.split (stripChars text)) = some chunks →
      ∃ chunk ∈ chunks, Visible chunk := by
    intro hsome
    cases hsome
    exact hdefault _ hends.visible
  simp only [SemanticChunker.split, if_neg hends.visible.ne_nil] at hsplit
  split at hsplit
  next => exact hgiveUp hsplit
  next embed _ =>
  split at hsplit
  next => exact hgiveUp hsplit
  next =>
  split at hsplit
  next => exact hgiveUp hsplit
  next vectors _ =>
  split at hsplit
  next => exact hgiveUp hsplit
  next =>
      obtain ⟨groups, hgroups, rfl⟩ := Option.map_eq_some_iff.mp hsplit
      unfold SemanticChunker.groupByBreakpoints at hgroups
      split at hgroups
      next => cases hgroups
      next sentence sentences hsentences =>
          have hfirst : Visible sentence :=
            mem_splitSentences (hsentences ▸ List.mem_cons_self)
          obtain ⟨group, hgroup, hvisible⟩ := groupFrom_visible sentences [sentence] _ groups
            ⟨sentence, List.mem_singleton_self _, hfirst⟩ hgroups
          have hchunk : ∃ chunk ∈ (if group.length ≤ self.maxChunkChars then [group]
              else self.fallbackChunker.split group), Visible chunk := by
            split
            · exact ⟨group, List.mem_singleton_self _, hvisible⟩
            · exact hdefault group hvisible
          obtain ⟨chunk, hmem, hchunkVisible⟩ := hchunk
          exact ⟨chunk, List.mem_flatMap.mpr ⟨group, hgroup, hmem⟩, hchunkVisible⟩

end Semantic

end Lour.Rag
