import Lour.Rag.Words
/-!
# Where merging breaks words

Merging puts a space between any two pieces.  Between most pieces there was whitespace
before; only a word that is too long for a chunk is split without.
-/

namespace Lour.Rag

open Lour.Lib.Python

/-! ## Pieces with whitespace between them -/

/-- The pieces lie in the text in order, with whitespace between any two. -/
inductive Laid : List (List Char) → List Char → Prop
  | nil (text : List Char) : Laid [] text
  | last {piece text : List Char} : piece <:+: text → Laid [piece] text
  | cons {piece front back : List Char} {c : Char} {pieces : List (List Char)} :
      piece <:+: front → isSpace c = true → Laid pieces back →
      Laid (piece :: pieces) (front ++ c :: back)

namespace Laid

variable {pieces others : List (List Char)} {text front back : List Char}

theorem append_right (h : Laid pieces text) (back : List Char) : Laid pieces (text ++ back) := by
  induction h with
  | nil => exact .nil _
  | last hpiece => exact .last (hpiece.trans (List.prefix_append ..).isInfix)
  | cons hpiece hc _ ih =>
      rw [List.append_assoc, List.cons_append]
      exact .cons hpiece hc ih

theorem append_left (h : Laid pieces text) (front : List Char) : Laid pieces (front ++ text) := by
  cases h with
  | nil => exact .nil _
  | last hpiece => exact .last (hpiece.trans (List.suffix_append ..).isInfix)
  | cons hpiece hc hpieces =>
      rw [← List.append_assoc]
      exact .cons (hpiece.trans (List.suffix_append ..).isInfix) hc hpieces

theorem append {c : Char} (hc : isSpace c = true) (h : Laid pieces front)
    (hothers : Laid others back) : Laid (pieces ++ others) (front ++ c :: back) := by
  induction h with
  | nil text =>
      rw [List.nil_append, List.append_cons]
      exact hothers.append_left _
  | last hpiece => exact .cons hpiece hc hothers
  | cons hpiece hd _ ih =>
      rw [List.append_assoc, List.cons_append, List.cons_append]
      exact .cons hpiece hd ih

theorem short (text : List Char) : Laid (RecursiveCharacterChunker.short text) text := by
  rw [RecursiveCharacterChunker.short]
  split
  next => exact .nil text
  next => exact .last List.infix_rfl

/-- The pieces of the parts, where the separator has whitespace in it. -/
theorem flatMap_intercalate {sep : List Char} (hsep : ∃ c ∈ sep, isSpace c = true)
    {f : List Char → List (List Char)} {parts : List (List Char)}
    (h : ∀ part ∈ parts, Laid (f part) part) : Laid (parts.flatMap f) (sep.intercalate parts) := by
  induction parts with
  | nil => exact .nil _
  | cons part parts ih =>
      obtain ⟨hpart, hparts⟩ := List.forall_mem_cons.mp h
      cases parts with
      | nil =>
          rw [List.flatMap_cons, List.flatMap_nil, List.append_nil, List.intercalate_singleton]
          exact hpart
      | cons other parts =>
          obtain ⟨c, hc, hspace⟩ := hsep
          obtain ⟨left, right, rfl⟩ := List.append_of_mem hc
          have hsplit : part ++ (left ++ c :: right) ++
              (left ++ c :: right).intercalate (other :: parts) =
              (part ++ left) ++ c :: (right ++
                (left ++ c :: right).intercalate (other :: parts)) := by
            simp only [List.append_assoc, List.cons_append]
          rw [List.flatMap_cons, List.intercalate_cons_cons, hsplit]
          exact append hspace (hpart.append_right left) ((ih hparts).append_left right)

end Laid

/-- No two visible characters stand side by side. -/
def Apart : List Char → Prop
  | c :: d :: cs => (isSpace c = true ∨ isSpace d = true) ∧ Apart (d :: cs)
  | _ => True

theorem Apart.tail {c : Char} {cs : List Char} (h : Apart (c :: cs)) : Apart cs := by
  cases cs with
  | nil => trivial
  | cons d cs => exact h.2

theorem short_singleton (c : Char) :
    RecursiveCharacterChunker.short [c] = if isSpace c = true then [] else [[c]] := by
  simp [RecursiveCharacterChunker.short, blankChars]

/-- The single characters of a text, the visible ones. -/
def singles (text : List Char) : List (List Char) :=
  text.flatMap fun c => RecursiveCharacterChunker.short [c]

theorem singles_space {c : Char} (hc : isSpace c = true) (cs : List Char) :
    singles (c :: cs) = singles cs := by
  rw [singles, List.flatMap_cons, short_singleton, if_pos hc]
  rfl

theorem singles_visible {c : Char} (hc : ¬ isSpace c = true) (cs : List Char) :
    singles (c :: cs) = [c] :: singles cs := by
  rw [singles, List.flatMap_cons, short_singleton, if_neg hc]
  rfl

theorem Apart.laid : ∀ {text : List Char}, Apart text → Laid (singles text) text
  | [], _ => .nil []
  | [c], _ => by
      rw [singles, List.flatMap_singleton]
      exact .short [c]
  | c :: d :: cs, h => by
      by_cases hc : isSpace c = true
      · rw [singles_space hc]
        exact (Apart.laid h.2).append_left [c]
      · have hd : isSpace d = true := h.1.resolve_left hc
        rw [singles_visible hc, singles_space hd]
        exact @Laid.cons [c] [c] cs d _ List.infix_rfl hd (Apart.laid h.tail.tail)

namespace RecursiveCharacterChunker

variable {self : RecursiveCharacterChunker}

/-! ## The splits -/

/-- No split into single characters tears a word apart. -/
def Whole (self : RecursiveCharacterChunker) : List (List Char) → List Char → Prop
  | [], _ => True
  | sep :: rest, text =>
      self.chunkSize < text.length → (sep = [] → Apart text) ∧
        ∀ part ∈ partsOf sep text, self.chunkSize < part.length → Whole self rest part

theorem piecesOf_laid {rest : List (List Char)} {part : List Char}
    (h : self.chunkSize < part.length → Laid (self.splitRecursive rest part) part) :
    Laid (self.piecesOf rest part) part := by
  rw [piecesOf]
  by_cases hlong : self.chunkSize < part.length
  · rw [if_neg (Nat.not_le_of_lt hlong)]
    exact h hlong
  · rw [if_pos (Nat.le_of_not_lt hlong)]
    exact .short part

theorem flatMap_singles (rest : List (List Char)) (text : List Char) :
    (partsOf [] text).flatMap (self.piecesOf rest) = singles text := by
  have hone : 1 ≤ self.chunkSize := Nat.lt_of_le_of_lt (Nat.zero_le _) self.overlap_lt
  rw [partsOf, if_pos rfl, List.flatMap_map, singles]
  congr 1
  funext c
  rw [piecesOf, List.length_singleton, if_pos hone]

theorem splitRecursive_laid {separators : List (List Char)} (hlast : [] ∈ separators)
    (hspace : ∀ sep ∈ separators, sep ≠ [] → ∃ c ∈ sep, isSpace c = true) {text : List Char}
    (h : self.Whole separators text) : Laid (self.splitRecursive separators text) text := by
  induction separators generalizing text with
  | nil => exact absurd hlast List.not_mem_nil
  | cons sep rest ih =>
      by_cases hlong : self.chunkSize < text.length
      · obtain ⟨hwords, hparts⟩ := h hlong
        rw [splitRecursive_long hlong]
        by_cases hsep : sep = []
        · rw [hsep, flatMap_singles]
          exact (hwords hsep).laid
        · have hpieces : ∀ part ∈ partsOf sep text, Laid (self.piecesOf rest part) part := by
            intro part hmem
            apply piecesOf_laid
            intro hover
            exact ih (nil_mem_of_long hlast hmem hover)
              (fun other hother => hspace other (List.mem_cons_of_mem _ hother))
              (hparts part hmem hover)
          have hjoined := Laid.flatMap_intercalate (hspace sep List.mem_cons_self hsep) hpieces
          have htext : sep.intercalate (partsOf sep text) = text := by
            rw [partsOf, if_neg hsep, intercalate_parts hsep]
          rwa [htext] at hjoined
      · rw [splitRecursive_short (Nat.le_of_not_lt hlong)]
        exact .short text

/-- No word that is too long for a chunk has two visible characters side by side.
(The words of a sentence are what `" "` separates, the sentences of a line what `". "`
separates.) -/
def LongWordsApart (limit : ℕ) (text : List Char) : Prop :=
  ∀ line ∈ splitOn ['\n'] 0 [] text, ∀ sentence ∈ splitOn ['.', ' '] 0 [] line,
    ∀ word ∈ splitOn [' '] 0 [] sentence, limit < word.length → Apart word

theorem whole_word (word : List Char) :
    self.Whole [[]] word ↔ (self.chunkSize < word.length → Apart word) := by
  constructor
  · intro h hlong
    exact (h hlong).1 rfl
  · intro h hlong
    exact ⟨fun _ => h hlong, fun _ _ _ => trivial⟩

/-- A separator that is not the last resort only passes on what it separates. -/
theorem whole_cons_iff {sep : List Char} (hsep : sep ≠ []) (rest : List (List Char))
    (text : List Char) :
    self.Whole (sep :: rest) text ↔
      ∀ part ∈ splitOn sep 0 [] text, self.chunkSize < part.length → self.Whole rest part := by
  have hparts : partsOf sep text = splitOn sep 0 [] text := if_neg hsep
  constructor
  · intro h part hmem hlong
    have hle := length_le_of_mem_splitOn hsep hmem
    exact (h (by omega)).2 part (hparts ▸ hmem) hlong
  · intro h _
    exact ⟨fun hnil => absurd hnil hsep, fun part hmem => h part (hparts ▸ hmem)⟩

theorem whole_default_iff (text : List Char) :
    self.Whole defaultSeparators text ↔ LongWordsApart self.chunkSize text := by
  have hne : ∀ {c : Char} {cs : List Char}, c :: cs ≠ [] := List.cons_ne_nil _ _
  simp only [defaultSeparators, whole_cons_iff hne, whole_word]
  constructor
  · intro h line hline sentence hsentence word hword hlong
    have hwordLe := length_le_of_mem_splitOn hne hword
    have hsentenceLe := length_le_of_mem_splitOn hne hsentence
    obtain ⟨paragraph, hparagraph, hmem⟩ :=
      (mem_lines_iff (List.ne_nil_of_length_pos (by omega))).mp hline
    have hlineLe := length_le_of_mem_splitOn hne hmem
    exact h paragraph hparagraph (by omega) line hmem (by omega) sentence hsentence (by omega)
      word hword hlong hlong
  · intro h paragraph hparagraph _ line hline hlong sentence hsentence _ word hword _ hover
    have hmem := (mem_lines_iff (List.ne_nil_of_length_pos (by omega))).mpr
      ⟨paragraph, hparagraph, hline⟩
    exact h line hmem sentence hsentence word hword hover

/-! ## The merging loop -/

/-- The chunks so far, and the one that is being put together, keep the words of the
text that the loop has passed. -/
def Within (text : List Char) (acc : List (List Char) × List Char) : Prop :=
  (∀ chunk ∈ acc.1, KeepsWords chunk text) ∧ KeepsWords acc.2 text

theorem Within.closed {text : List Char} {chunks : List (List Char)} {current : List Char}
    (h : Within text (chunks, current)) :
    ∀ chunk ∈ closed chunks current, KeepsWords chunk text := by
  intro chunk hchunk
  rcases mem_closed hchunk with hold | ⟨-, rfl⟩
  · exact h.1 chunk hold
  · exact h.2

section Step

variable {text front piece : List Char} {c : Char}

theorem candidate_keepsWords {current : List Char} (hc : isSpace c = true)
    (hcurrent : KeepsWords current text) (hpiece : KeepsWords piece front) :
    KeepsWords (candidate current piece) (text ++ c :: front) := by
  rw [candidate]
  split
  next => exact hpiece.mono (List.suffix_append_of_suffix (List.suffix_cons c front)).isInfix
  next => exact (KeepsWords.join hc hcurrent hpiece).of_isInfix (stripChars_isInfix _)

theorem overlapped_keepsWords {chunks : List (List Char)} (hc : isSpace c = true)
    (hchunks : ∀ chunk ∈ chunks, KeepsWords chunk text) (hpiece : KeepsWords piece front) :
    KeepsWords (self.overlapped chunks piece) (text ++ c :: front) := by
  have hafter : KeepsWords piece (text ++ c :: front) :=
    hpiece.mono (List.suffix_append_of_suffix (List.suffix_cons c front)).isInfix
  rw [overlapped]
  split
  next last hlast =>
      have hmem : last ∈ chunks := by
        split at hlast
        next => cases hlast
        next => exact List.mem_of_getLast? hlast
      have htail := (hchunks last hmem).of_isInfix
        (List.drop_suffix (last.length - self.chunkOverlap) last).isInfix
      dsimp only
      split
      next => exact hafter
      next => exact (KeepsWords.join hc htail hpiece).of_isInfix (stripChars_isInfix _)
  next => exact hafter

theorem mergePiece_within {acc : List (List Char) × List Char} (hc : isSpace c = true)
    (hacc : Within text acc) (hpiece : KeepsWords piece front) :
    Within (text ++ c :: front) (self.mergePiece acc piece) := by
  have hlonger : text <:+: text ++ c :: front := (List.prefix_append ..).isInfix
  rw [mergePiece]
  split
  next => exact ⟨fun chunk hchunk => (hacc.1 chunk hchunk).mono hlonger,
      candidate_keepsWords hc hacc.2 hpiece⟩
  next => exact ⟨fun chunk hchunk => (hacc.closed chunk hchunk).mono hlonger,
      overlapped_keepsWords hc hacc.closed hpiece⟩

end Step

theorem foldl_within {pieces : List (List Char)} {rest : List Char} (h : Laid pieces rest) :
    ∀ {text : List Char} {c : Char} {acc : List (List Char) × List Char}, isSpace c = true →
      Within text acc → Within (text ++ c :: rest) (pieces.foldl self.mergePiece acc) := by
  induction h with
  | nil rest =>
      intro text c acc _ hacc
      have hlonger : text <:+: text ++ c :: rest := (List.prefix_append ..).isInfix
      exact ⟨fun chunk hchunk => (hacc.1 chunk hchunk).mono hlonger, hacc.2.mono hlonger⟩
  | last hpiece =>
      intro text c acc hc hacc
      exact mergePiece_within hc hacc ((KeepsWords.refl _).mono hpiece)
  | @cons piece front back d pieces hpiece hd _ ih =>
      intro text c acc hc hacc
      have hstep := self.mergePiece_within hc hacc ((KeepsWords.refl _).mono hpiece)
      rw [List.foldl_cons, ← List.cons_append, ← List.append_assoc]
      exact ih hd hstep

theorem mergeWithOverlap_keepsWords {pieces : List (List Char)} {text : List Char}
    (h : Laid pieces text) : ∀ chunk ∈ self.mergeWithOverlap pieces, KeepsWords chunk text := by
  have hempty : Within [] ([], []) :=
    ⟨fun _ hchunk => absurd hchunk List.not_mem_nil, KeepsWords.nil []⟩
  have hfold : Within ([] ++ ' ' :: text) (pieces.foldl self.mergePiece ([], [])) :=
    foldl_within h isSpace_blank hempty
  intro chunk hchunk
  exact (hfold.closed chunk hchunk).of_cons isSpace_blank

/-! ## Chunks of at most two characters -/

/-- What lies between two visible characters is not stripped. -/
theorem isInfix_stripChars {x y : Char} (hx : isSpace x = false) (hy : isSpace y = false)
    (front middle back : List Char) :
    x :: middle ++ [y] <:+: stripChars (front ++ (x :: middle ++ [y]) ++ back) := by
  have hdrop : ∀ {z : Char}, isSpace z = false → ∀ cs ds : List Char,
      z :: ds <:+ (cs ++ z :: ds).dropWhile isSpace := by
    intro z hz cs ds
    induction cs with
    | nil =>
        rw [List.nil_append, List.dropWhile_cons, hz]
        exact List.suffix_rfl
    | cons c cs ih =>
        rw [List.cons_append, List.dropWhile_cons]
        split
        next => exact ih
        next => exact List.suffix_append (c :: cs) (z :: ds)
  obtain ⟨cs, hcs⟩ := hdrop hx front (middle ++ [y] ++ back)
  have hback := hdrop hy back.reverse (cs ++ x :: middle).reverse
  have hreverse : back.reverse ++ y :: (cs ++ x :: middle).reverse =
      (cs ++ x :: (middle ++ [y] ++ back)).reverse := by
    simp only [List.reverse_append, List.reverse_cons, List.append_assoc, List.cons_append,
      List.nil_append]
  rw [hreverse] at hback
  have htext : front ++ (x :: middle ++ [y]) ++ back = front ++ x :: (middle ++ [y] ++ back) := by
    simp only [List.append_assoc, List.cons_append]
  rw [htext, stripChars, ← hcs, List.rdropWhile]
  apply List.IsInfix.trans _ (List.reverse_prefix.mpr hback).isInfix
  rw [List.reverse_cons, List.reverse_reverse, List.append_assoc]
  exact (List.suffix_append ..).isInfix

theorem joined_length {front back : List Char} (hfront : Visible front) (hback : Visible back) :
    2 < (stripChars (front ++ ' ' :: back)).length := by
  obtain ⟨x, hx, hxVisible⟩ := hfront
  obtain ⟨y, hy, hyVisible⟩ := hback
  obtain ⟨f, f', rfl⟩ := List.append_of_mem hx
  obtain ⟨b, b', rfl⟩ := List.append_of_mem hy
  have hinfix := isInfix_stripChars hxVisible hyVisible f (f' ++ ' ' :: b) b'
  have htext : f ++ (x :: (f' ++ ' ' :: b) ++ [y]) ++ b' =
      f ++ x :: f' ++ ' ' :: (b ++ y :: b') := by
    simp only [List.append_assoc, List.cons_append, List.nil_append]
  have hlength := hinfix.length_le
  rw [htext] at hlength
  simp only [List.length_append, List.length_cons, List.length_nil] at hlength
  omega

/-- In so short a chunk no two pieces have room. -/
def Stretches (text : List Char) (acc : List (List Char) × List Char) : Prop :=
  (∀ chunk ∈ acc.1, chunk <:+: text) ∧ acc.2 <:+: text

theorem Stretches.closed {text : List Char} {chunks : List (List Char)} {current : List Char}
    (h : Stretches text (chunks, current)) : ∀ chunk ∈ closed chunks current, chunk <:+: text := by
  intro chunk hchunk
  rcases mem_closed hchunk with hold | ⟨-, rfl⟩
  · exact h.1 chunk hold
  · exact h.2

theorem overlapped_stretch (hsize : self.chunkSize ≤ 2) {text piece : List Char}
    {chunks : List (List Char)} (hvisible : Visible piece) (hpiece : piece <:+: text) :
    self.overlapped chunks piece <:+: text := by
  rw [overlapped]
  split
  next last _ =>
      dsimp only
      split
      next => exact hpiece
      next hfits =>
          -- only a blank end of the last chunk is short enough
          have hblank : ¬ Visible (last.drop (last.length - self.chunkOverlap)) := by
            intro htail
            have hlength := joined_length htail hvisible
            omega
          rw [← blankChars_eq_false, Bool.not_eq_false] at hblank
          rw [stripChars_append_left (List.all_eq_true.mp hblank)]
          exact (stripChars_isInfix piece).trans hpiece
  next => exact hpiece

theorem mergePiece_stretches (hsize : self.chunkSize ≤ 2) {text piece : List Char}
    {acc : List (List Char) × List Char} (hfits : Merging self.chunkSize acc)
    (hacc : Stretches text acc) (hvisible : Visible piece) (hpiece : piece <:+: text) :
    Stretches text (self.mergePiece acc piece) := by
  rw [mergePiece]
  split
  next hlength =>
      refine ⟨hacc.1, ?_⟩
      rw [candidate] at hlength ⊢
      split at hlength
      next hnil =>
          rw [if_pos hnil]
          exact hpiece
      next hne =>
          have hjoined := joined_length (hfits.2 hne).1 hvisible
          omega
  next => exact ⟨hacc.closed, overlapped_stretch hsize hvisible hpiece⟩

theorem mergeWithOverlap_stretches (hsize : self.chunkSize ≤ 2) {text : List Char}
    {pieces : List (List Char)} (hpieces : ∀ piece ∈ pieces, piece <:+: text)
    (hfits : ∀ piece ∈ pieces, Fits self.chunkSize piece) :
    ∀ chunk ∈ self.mergeWithOverlap pieces, chunk <:+: text := by
  have hempty : Merging self.chunkSize ([], []) :=
    ⟨fun _ hchunk => absurd hchunk List.not_mem_nil, fun hne => absurd rfl hne⟩
  have hnone : Stretches text ([], []) :=
    ⟨fun _ hchunk => absurd hchunk List.not_mem_nil, List.nil_infix⟩
  have hfold : Merging self.chunkSize (pieces.foldl self.mergePiece ([], [])) ∧
      Stretches text (pieces.foldl self.mergePiece ([], [])) := by
    apply List.foldlRecOn (motive := fun acc => Merging self.chunkSize acc ∧ Stretches text acc)
      pieces self.mergePiece ⟨hempty, hnone⟩
    intro acc ⟨hmerging, hacc⟩ piece hpiece
    exact ⟨mergePiece_merging hmerging (hfits piece hpiece),
      mergePiece_stretches hsize hmerging hacc (hfits piece hpiece).1 (hpieces piece hpiece)⟩
  exact hfold.2.closed

theorem splitRecursive_isInfix {separators : List (List Char)} (hlast : [] ∈ separators)
    (text : List Char) : ∀ piece ∈ self.splitRecursive separators text, piece <:+: text :=
  fun _ hpiece => (mem_splitRecursive hlast hpiece).2.2

/-! ## A text without whitespace -/

/-- The single characters of a long text are put together again with spaces. -/
def Torn (torn : List Char) (acc : List (List Char) × List Char) : Prop :=
  (∃ chunk ∈ acc.1, torn <:+: chunk) ∨ torn <:+: acc.2

theorem Torn.closed {torn : List Char} (hne : torn ≠ []) {acc : List (List Char) × List Char}
    (h : Torn torn acc) : ∃ chunk ∈ closed acc.1 acc.2, torn <:+: chunk := by
  rw [RecursiveCharacterChunker.closed]
  rcases h with ⟨chunk, hchunk, hinfix⟩ | hcurrent
  · refine ⟨chunk, ?_, hinfix⟩
    split
    next => exact hchunk
    next => exact List.mem_append_left _ hchunk
  · have hcurrentNe : acc.2 ≠ [] := by
      intro hnil
      rw [hnil, List.infix_nil] at hcurrent
      exact hne hcurrent
    rw [if_neg hcurrentNe]
    exact ⟨acc.2, List.mem_append_right _ (List.mem_singleton_self _), hcurrent⟩

theorem mergePiece_torn {x y : Char} (hx : isSpace x = false) (hy : isSpace y = false)
    {acc : List (List Char) × List Char} (h : Torn [x, ' ', y] acc) (piece : List Char) :
    Torn [x, ' ', y] (self.mergePiece acc piece) := by
  rw [mergePiece]
  split
  next =>
      rcases h with hold | ⟨front, back, hcurrent⟩
      · exact .inl hold
      · right
        have hne : acc.2 ≠ [] := by
          rw [← hcurrent]
          simp
        have hstrip := isInfix_stripChars hx hy front [' '] (back ++ ' ' :: piece)
        rw [← List.append_assoc] at hstrip
        rw [candidate, if_neg hne, ← hcurrent]
        exact hstrip
  next => exact .inl (h.closed (List.cons_ne_nil _ _))

theorem foldl_torn {x y : Char} (hx : isSpace x = false) (hy : isSpace y = false)
    (pieces : List (List Char)) {acc : List (List Char) × List Char} (h : Torn [x, ' ', y] acc) :
    Torn [x, ' ', y] (pieces.foldl self.mergePiece acc) := by
  apply List.foldlRecOn pieces self.mergePiece h
  intro acc hacc piece _
  exact mergePiece_torn hx hy hacc piece

/-- Where no separator occurs, a long text falls apart. -/
theorem splitRecursive_singles {separators : List (List Char)} (hlast : [] ∈ separators)
    {text : List Char} (hlong : self.chunkSize < text.length)
    (hnone : ∀ sep ∈ separators, sep ≠ [] → ¬ sep <:+: text) :
    self.splitRecursive separators text = singles text := by
  induction separators with
  | nil => exact absurd hlast List.not_mem_nil
  | cons sep rest ih =>
      rw [splitRecursive_long hlong]
      by_cases hsep : sep = []
      · rw [hsep, flatMap_singles]
      · have hrest : [] ∈ rest := (List.mem_cons.mp hlast).resolve_left fun heq => hsep heq.symm
        rw [partsOf, if_neg hsep, splitOn_of_not_isInfix (hnone sep List.mem_cons_self hsep),
          List.flatMap_singleton, piecesOf, List.nil_append, if_neg (Nat.not_le_of_lt hlong)]
        exact ih hrest fun other hother => hnone other (List.mem_cons_of_mem _ hother)

theorem space_of_default : ∀ sep ∈ defaultSeparators, sep ≠ [] → ∃ c ∈ sep, isSpace c = true := by
  intro sep hsep hne
  simp only [defaultSeparators, List.mem_cons, List.not_mem_nil, or_false] at hsep
  rcases hsep with rfl | rfl | rfl | rfl | rfl
  · exact ⟨'\n', by decide, by decide⟩
  · exact ⟨'\n', by decide, by decide⟩
  · exact ⟨' ', by decide, isSpace_blank⟩
  · exact ⟨' ', by decide, isSpace_blank⟩
  · exact absurd rfl hne

theorem visible_of_all {text : List Char} (h : (text.all fun c => !isSpace c) = true) :
    ∀ c ∈ text, isSpace c = false := by
  intro c hc
  simpa using List.all_eq_true.mp h c hc

section NoSpace

variable {text : List Char} (hvisible : ∀ c ∈ text, isSpace c = false)

include hvisible

theorem not_infix_of_space {sep : List Char} (hsep : ∃ c ∈ sep, isSpace c = true) :
    ¬ sep <:+: text := by
  intro hinfix
  obtain ⟨c, hc, hspace⟩ := hsep
  rw [hvisible c (List.IsInfix.subset hinfix hc)] at hspace
  cases hspace

theorem stripChars_of_visible : stripChars text = text := by
  have hnone : text.dropWhile isSpace = text := by
    apply List.dropWhile_eq_self_iff.mpr
    intro hlength
    rw [hvisible _ (List.getElem_mem hlength)]
    decide
  rw [stripChars, hnone, List.rdropWhile_eq_self_iff]
  intro hne
  rw [hvisible _ (List.getLast_mem hne)]
  decide

theorem longWordsApart_iff_length {limit : ℕ} (hlimit : 0 < limit) :
    LongWordsApart limit text ↔ text.length ≤ limit := by
  have hline : splitOn ['\n'] 0 [] text = [text] :=
    splitOn_of_not_isInfix (not_infix_of_space hvisible ⟨'\n', by decide, by decide⟩) []
  have hsentence : splitOn ['.', ' '] 0 [] text = [text] :=
    splitOn_of_not_isInfix (not_infix_of_space hvisible ⟨' ', by decide, isSpace_blank⟩) []
  have hword : splitOn [' '] 0 [] text = [text] :=
    splitOn_of_not_isInfix (not_infix_of_space hvisible ⟨' ', by decide, isSpace_blank⟩) []
  have hapart : Apart text ↔ text.length ≤ 1 := by
    cases text with
    | nil => exact iff_of_true trivial (Nat.zero_le _)
    | cons x rest =>
        cases rest with
        | nil => exact iff_of_true trivial (Nat.le_refl _)
        | cons y rest =>
            refine iff_of_false ?_ (by simp)
            rintro ⟨hspace | hspace, -⟩
            · rw [hvisible x (by simp)] at hspace
              cases hspace
            · rw [hvisible y (by simp)] at hspace
              cases hspace
  rw [LongWordsApart, hline, List.forall_mem_singleton, hsentence, List.forall_mem_singleton,
    hword, List.forall_mem_singleton, hapart]
  omega

end NoSpace

/-- No chunk of the text has whitespace between two visible characters that had none
between them, and a text without whitespace has chunks without. -/
def KeepsAllWords (self : RecursiveCharacterChunker) (text : List Char) : Prop :=
  (∀ chunk ∈ self.split text, KeepsWords chunk text) ∧
    ((∀ c ∈ text, isSpace c = false) →
      ∀ chunk ∈ self.split text, ∀ c ∈ chunk, isSpace c = false)

theorem keepsAllWords_of_isInfix {text : List Char}
    (h : ∀ chunk ∈ self.split text, chunk <:+: text) : self.KeepsAllWords text :=
  ⟨fun chunk hchunk => (KeepsWords.refl chunk).mono (h chunk hchunk),
    fun hvisible chunk hchunk c hc => hvisible c ((h chunk hchunk).subset hc)⟩

theorem keepsAllWords_of_small (hlast : [] ∈ self.separators) (hsize : self.chunkSize ≤ 2)
    (text : List Char) : self.KeepsAllWords text := by
  apply keepsAllWords_of_isInfix
  intro chunk hchunk
  have hstretch := mergeWithOverlap_stretches hsize (splitRecursive_isInfix hlast (stripChars text))
    (splitRecursive_fits hlast (stripChars text)) chunk (mem_split hchunk)
  exact hstretch.trans (stripChars_isInfix text)

/-- A text that fits into a chunk is its only one. -/
theorem mem_split_short {text chunk : List Char}
    (hlength : (stripChars text).length ≤ self.chunkSize) (h : chunk ∈ self.split text) :
    chunk = stripChars text := by
  have hmem := mem_split h
  rw [splitRecursive_short hlength, short] at hmem
  split at hmem
  next => exact absurd hmem List.not_mem_nil
  next =>
      have hfirst : self.mergePiece ([], []) (stripChars text) = ([], stripChars text) := by
        rw [mergePiece, candidate, if_pos rfl, if_pos hlength]
      rw [mergeWithOverlap, List.foldl_cons, List.foldl_nil, hfirst] at hmem
      rcases mem_closed hmem with hnil | ⟨-, heq⟩
      · exact absurd hnil List.not_mem_nil
      · exact heq

theorem keepsAllWords_of_apart (hseparators : self.separators = defaultSeparators)
    {text : List Char} (h : LongWordsApart self.chunkSize (stripChars text)) :
    self.KeepsAllWords text := by
  have hpos : 0 < self.chunkSize := Nat.lt_of_le_of_lt (Nat.zero_le _) self.overlap_lt
  have hlast : [] ∈ self.separators := hseparators ▸ nil_mem_defaultSeparators
  have hspace : ∀ sep ∈ self.separators, sep ≠ [] → ∃ c ∈ sep, isSpace c = true :=
    hseparators ▸ space_of_default
  have hwhole : self.Whole self.separators (stripChars text) := by
    rw [hseparators]
    exact (whole_default_iff _).mpr h
  have hlaid := splitRecursive_laid hlast hspace hwhole
  refine ⟨?_, ?_⟩
  · intro chunk hchunk
    have hkept := mergeWithOverlap_keepsWords hlaid chunk (mem_split hchunk)
    exact hkept.mono (stripChars_isInfix text)
  · intro hvisible chunk hchunk
    rw [stripChars_of_visible hvisible, longWordsApart_iff_length hvisible hpos] at h
    rw [← stripChars_of_visible hvisible] at h
    rw [mem_split_short h hchunk, stripChars_of_visible hvisible]
    exact hvisible

/-- A text without whitespace that is too long for a chunk is torn. -/
theorem length_le_of_keepsAllWords (hseparators : self.separators = defaultSeparators)
    (hsize : 2 < self.chunkSize) {text : List Char} (hvisible : ∀ c ∈ text, isSpace c = false)
    (h : self.KeepsAllWords text) : text.length ≤ self.chunkSize := by
  by_contra hlong
  rw [Nat.not_le] at hlong
  obtain ⟨x, y, rest, rfl⟩ : ∃ x y rest, text = x :: y :: rest := by
    cases text with
    | nil => simp at hlong
    | cons x rest =>
        cases rest with
        | nil =>
            rw [List.length_singleton] at hlong
            omega
        | cons y rest => exact ⟨x, y, rest, rfl⟩
  have hx : isSpace x = false := hvisible x (by simp)
  have hy : isSpace y = false := hvisible y (by simp)
  have hpieces : self.splitRecursive self.separators (x :: y :: rest) =
      [x] :: [y] :: singles rest := by
    rw [hseparators, splitRecursive_singles nil_mem_defaultSeparators hlong fun sep hsep hne =>
      not_infix_of_space hvisible (space_of_default sep hsep hne), singles_visible (by simp [hx]),
      singles_visible (by simp [hy])]
  have hfirst : self.mergePiece ([], []) [x] = ([], [x]) := by
    rw [mergePiece, candidate, if_pos rfl, List.length_singleton, if_pos (by omega)]
  have hjoined : candidate [x] [y] = [x, ' ', y] := by
    have hstrip := isInfix_stripChars hx hy [] [' '] []
    rw [List.nil_append, List.append_nil] at hstrip
    rw [candidate, if_neg (List.cons_ne_nil _ _)]
    exact (stripChars_isInfix _).eq_of_length_le hstrip.length_le
  have hsecond : self.mergePiece ([], [x]) [y] = ([], [x, ' ', y]) := by
    have hthree : [x, ' ', y].length ≤ self.chunkSize := hsize
    rw [mergePiece, hjoined, if_pos hthree]
  have htorn : Torn [x, ' ', y] ((singles rest).foldl self.mergePiece ([], [x, ' ', y])) :=
    foldl_torn hx hy _ (.inr List.infix_rfl)
  obtain ⟨chunk, hchunk, hinfix⟩ := htorn.closed (List.cons_ne_nil _ _)
  have hmem : chunk ∈ self.split (x :: y :: rest) := by
    rw [split, stripChars_of_visible hvisible, if_neg (List.cons_ne_nil _ _), mergeWithOverlap,
      hpieces, List.foldl_cons, hfirst, List.foldl_cons, hsecond]
    exact hchunk
  have hspace := h.2 hvisible chunk hmem ' ' (List.IsInfix.subset hinfix (by simp))
  exact absurd hspace (by decide)

end RecursiveCharacterChunker

/-- Words stay whole in chunks of at most two characters, and where no long word has two
visible characters side by side; for a text without whitespace nowhere else. -/
theorem words_stay_whole (chunkSize chunkOverlap : ℕ) (h : chunkOverlap < chunkSize)
    (text : List Char) :
    (chunkSize ≤ 2 ∨ RecursiveCharacterChunker.LongWordsApart chunkSize (stripChars text) →
      (RecursiveCharacterChunker.mk chunkSize chunkOverlap defaultSeparators h).KeepsAllWords
        text) ∧
    ((∀ c ∈ text, isSpace c = false) →
      ((RecursiveCharacterChunker.mk chunkSize chunkOverlap defaultSeparators h).KeepsAllWords
        text ↔
      chunkSize ≤ 2 ∨ RecursiveCharacterChunker.LongWordsApart chunkSize (stripChars text))) := by
  have hkept : chunkSize ≤ 2 ∨
      RecursiveCharacterChunker.LongWordsApart chunkSize (stripChars text) →
      (RecursiveCharacterChunker.mk chunkSize chunkOverlap defaultSeparators h).KeepsAllWords
        text := by
    rintro (hsmall | hapart)
    · exact RecursiveCharacterChunker.keepsAllWords_of_small nil_mem_defaultSeparators hsmall text
    · exact RecursiveCharacterChunker.keepsAllWords_of_apart rfl hapart
  refine ⟨hkept, fun hvisible => ⟨fun hall => ?_, hkept⟩⟩
  by_cases hsmall : chunkSize ≤ 2
  · exact .inl hsmall
  · right
    rw [RecursiveCharacterChunker.stripChars_of_visible hvisible,
      RecursiveCharacterChunker.longWordsApart_iff_length hvisible (by omega)]
    exact RecursiveCharacterChunker.length_le_of_keepsAllWords rfl (Nat.lt_of_not_le hsmall)
      hvisible hall

theorem words_stay_whole_short :
    (RecursiveCharacterChunker.mk 3 1 defaultSeparators (by decide)).KeepsAllWords
        ['a', 'b', ' ', 'c', 'd'] ∧
      ((RecursiveCharacterChunker.mk 3 1 defaultSeparators (by decide)).KeepsAllWords
          ['a', 'b', 'c', 'd'] ↔
        3 ≤ 2 ∨ RecursiveCharacterChunker.LongWordsApart 3 (stripChars ['a', 'b', 'c', 'd'])) :=
  ⟨(words_stay_whole 3 1 (by decide) ['a', 'b', ' ', 'c', 'd']).1 (.inr (by
      intro line hline sentence hsentence word hword hlong
      have hlines : line = ['a', 'b', ' ', 'c', 'd'] := List.mem_singleton.mp hline
      subst hlines
      have hsentences : sentence = ['a', 'b', ' ', 'c', 'd'] := List.mem_singleton.mp hsentence
      subst hsentences
      have hwords : word ∈ [['a', 'b'], ['c', 'd']] := hword
      simp only [List.mem_cons, List.not_mem_nil, or_false] at hwords
      rcases hwords with rfl | rfl
      · exact absurd hlong (by decide)
      · exact absurd hlong (by decide))),
    (words_stay_whole 3 1 (by decide) ['a', 'b', 'c', 'd']).2
      (RecursiveCharacterChunker.visible_of_all (by decide))⟩

/-- "abcdef" in chunks of three characters. -/
theorem words_break :
    ¬ ∀ (chunkSize chunkOverlap : ℕ) (h : chunkOverlap < chunkSize) (text : List Char),
      (RecursiveCharacterChunker.mk chunkSize chunkOverlap defaultSeparators h).KeepsAllWords
        text := by
  intro hall
  have hchunk : ['a', ' ', 'b'] ∈ (RecursiveCharacterChunker.mk 3 0 defaultSeparators
      (by decide)).split ['a', 'b', 'c', 'd', 'e', 'f'] := by decide
  have hvisible : ∀ c ∈ ['a', 'b', 'c', 'd', 'e', 'f'], isSpace c = false :=
    RecursiveCharacterChunker.visible_of_all (by decide)
  have hspace := (hall 3 0 (by decide) ['a', 'b', 'c', 'd', 'e', 'f']).2 hvisible
    ['a', ' ', 'b'] hchunk ' ' (by decide)
  exact absurd hspace (by decide)

end Lour.Rag
