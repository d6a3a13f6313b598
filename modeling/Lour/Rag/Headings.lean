import Lour.Rag.Markdown
/-!
# The headings of a document

What the outline should be, line by line, and the documents in which the two expressions
find just that.
-/

namespace Lour.Rag

open Lour.Lib Lour.Lib.Python Lour.Lib.Regex

/-! ## ATX headings outside of fences -/

/-- The text of a heading, of what stands behind its marks: trimmed, without a closing run
that has a space before it. -/
def headingText (rest : List Char) : List Char :=
  let body := (rest.rdropWhile isSpace).rdropWhile (· == '#')
  if body.getLast? = some ' ' then stripChars body else stripChars rest

def atxHeading (l : List Char) : Option (ℕ × List Char) :=
  let level := (l.takeWhile (· == '#')).length
  let rest := l.dropWhile (· == '#')
  if (1 ≤ level ∧ level ≤ 6) ∧
      (rest = [] ∨ rest.head? = some ' ' ∨ rest.head? = some '\t') then
    some (level, headingText rest)
  else none

/-- What opened a fenced block. -/
structure FenceMark where
  mark : Char
  length : ℕ

/-- A run of three marks or more, indented by no more than three spaces, with what stands
behind it. -/
def fenceLine (mark : Char) (l : List Char) : Option (ℕ × List Char) :=
  let body := l.dropWhile (· == ' ')
  let run := body.takeWhile (· == mark)
  if (l.takeWhile (· == ' ')).length ≤ 3 ∧ 3 ≤ run.length then
    some (run.length, body.dropWhile (· == mark))
  else none

/-- Backticks have no backtick behind them on the line. -/
def opens (l : List Char) : Option FenceMark :=
  match fenceLine backtick l with
  | some (n, info) => if backtick ∈ info then none else some ⟨backtick, n⟩
  | none => (fenceLine '~' l).map fun r => ⟨'~', r.1⟩

/-- At least as many marks, and only blanks behind them. -/
def closes (f : FenceMark) (l : List Char) : Bool :=
  match fenceLine f.mark l with
  | some (n, rest) => decide (f.length ≤ n) && rest.all isSpace
  | none => false

/-- Where a line ends: inside the block that `some f` opened, or outside of any.  A block goes
on to the end if nothing closes it. -/
def fenceAfter : Option FenceMark → List Char → Option FenceMark
  | none, l => opens l
  | some f, l => if closes f l then none else some f

/-- The line is outside of blocks and opens none. -/
def outside (f : Option FenceMark) (l : List Char) : Bool := f.isNone && (opens l).isNone

def headingAt (f : Option FenceMark) (l : List Char) : Option (ℕ × List Char) :=
  if outside f l then atxHeading l else none

def atxFrom : Option FenceMark → List (List Char) → List (ℕ × List Char)
  | _, [] => []
  | f, l :: ls => (headingAt f l).toList ++ atxFrom (fenceAfter f l) ls

def atxHeadings (text : List Char) : List (ℕ × List Char) := atxFrom none (textLines text)

/-! ## The matches of the heading expression -/

def headings (before : Option Char) (s : List Char) : List (ℕ × List Char) :=
  (finditer headingRe before s).map headingOf

section Matches

variable {before before' : Option Char} {l s after : List Char}

theorem headings_nil : headings before [] = [] := by
  rw [headings, finditer, tokens_nil]
  rfl

theorem headings_of_none {d : Char} (h : run headingRe before (d :: s) = none) :
    headings before (d :: s) = headings (some d) s := by
  rw [headings, finditer, tokens_of_none h]
  rfl

theorem headings_of_some {parts : List (List Char)} {rest : List Char}
    (h : run headingRe before s = some (parts, rest)) (hlt : rest.length < s.length) :
    headings before s = headingOf parts :: headings (lastOf before parts.flatten) rest := by
  rw [headings, finditer, tokens_of_some h hlt]
  rfl

theorem headings_newline : headings before ('\n' :: s) = headings (some '\n') s :=
  headings_of_none (run_heading_of_ne (by decide))

theorem headings_atLineEnd (h : AtLineEnd s) : headings before s = headings before' s := by
  cases s with
  | nil => rw [headings_nil, headings_nil]
  | cons d s => rw [h.eq_newline, headings_newline, headings_newline]

theorem headings_blank {w : List Char} (hw : ∀ d ∈ w, isSpace d = true) :
    headings before (w ++ s) = headings (lastOf before w) s := by
  induction w generalizing before with
  | nil => rfl
  | cons d w ih =>
      obtain ⟨hd, hrest⟩ := List.forall_mem_cons.mp hw
      have hne : d ≠ '#' := ne_hash_of_isSpace hd
      rw [List.cons_append, headings_of_none (run_heading_of_ne hne), ih hrest]
      congr 1
      rw [lastOf, lastOf, List.getLast?_cons]
      cases w.getLast? <;> rfl

/-- Away from the start of a line nothing is found before the line ends. -/
theorem headings_within {d : Char} (hd : d ≠ '\n') (hl : '\n' ∉ l) (hafter : AtLineEnd after) :
    headings (some d) (l ++ after) = headings before after := by
  induction l generalizing d with
  | nil => exact headings_atLineEnd hafter
  | cons e l ih =>
      rw [List.mem_cons, not_or] at hl
      rw [List.cons_append, headings_of_none (run_heading_within hd)]
      exact ih (Ne.symm hl.1) hl.2

theorem headings_of_not_candidate (h : ¬ Candidate l) (hl : '\n' ∉ l) (hafter : AtLineEnd after) :
    headings before (l ++ after) = headings before' after := by
  have hnone : run headingRe before (l ++ after) = none := run_heading_of_not_candidate hafter h
  cases l with
  | nil => exact headings_atLineEnd hafter
  | cons d l =>
      rw [List.mem_cons, not_or] at hl
      rw [List.cons_append] at hnone ⊢
      rw [headings_of_none hnone]
      exact headings_within (Ne.symm hl.1) hl.2 hafter

end Matches

/-! ## Lines in order -/

/-- A line of what is left, and whether it is one that can be a heading. -/
structure LeftLine where
  line : List Char
  seen : Bool

def LeftLine.heading (k : LeftLine) : Option (ℕ × List Char) :=
  if k.seen then atxHeading k.line else none

/-- The text of some lines. -/
def leftText (ks : List LeftLine) : List Char := linesText (ks.map LeftLine.line)

theorem leftText_cons (k : LeftLine) (ks : List LeftLine) :
    leftText (k :: ks) = k.line ++ behind (ks.map LeftLine.line) := by
  rw [leftText, List.map_cons, linesText]

/-- The expression has the same text for a heading: a closing run has a space before it
just if it ends the line. -/
def TitleAgrees (rest : List Char) : Prop :=
  (rest.rdropWhile isSpace).rdropWhile (· == '#') = rest.rdropWhile isSpace ∨
    (((rest.rdropWhile isSpace).rdropWhile (· == '#')).getLast? = some ' ' ↔
      rest.rdropWhile isSpace = rest)

/-- Candidates are headings: those with a title have it in the expression as well, and after
one without a title there are only blank lines, and directly before it, if it has no blank
either, there is no heading without a closing run.  Where there is one before, blank lines
apart, the flag is set. -/
inductive Orderly : Bool → List LeftLine → Prop
  | nil {b : Bool} : Orderly b []
  | other {b : Bool} {k : LeftLine} {ks : List LeftLine} (hnot : ¬ Candidate k.line)
      (hrest : Orderly (b && k.line.all isSpace) ks) : Orderly b (k :: ks)
  /-- Marks at the very end, which the expression does not see. -/
  | last {l : List Char} (hmarks : ∀ d ∈ l, d = '#') : Orderly false [⟨l, false⟩]
  | titled {b : Bool} {l : List Char} {ks : List LeftLine} (hcandidate : Candidate l)
      (hblank : (l.dropWhile (· == '#')).head? = some ' ' ∨
        (l.dropWhile (· == '#')).head? = some '\t')
      (htitle : (l.dropWhile (· == '#')).all isSpace = false)
      (hagrees : TitleAgrees (l.dropWhile (· == '#')))
      (hrest : Orderly (l.getLast? != some '#') ks) : Orderly b (⟨l, true⟩ :: ks)
  | bare {b : Bool} {l : List Char} {ks : List LeftLine} (hcandidate : Candidate l)
      (hblank : l.dropWhile (· == '#') = [] ∧ b = false ∧ ks ≠ [] ∨
        (l.dropWhile (· == '#')).head? = some ' ' ∨
        (l.dropWhile (· == '#')).head? = some '\t')
      (htitle : (l.dropWhile (· == '#')).all isSpace = true)
      (hrest : ∀ k ∈ ks, k.line.all isSpace = true) : Orderly b (⟨l, true⟩ :: ks)

section Order

variable {l rest after : List Char} {ks : List LeftLine}

theorem isSpace_of_head {d : Char} (h : l.head? = some ' ' ∨ l.head? = some '\t')
    (hd : l.head? = some d) : isSpace d = true := by
  rcases h with hspace | htab
  · rw [hspace] at hd
    cases hd
    decide
  · rw [htab] at hd
    cases hd
    decide

theorem candidate_of_atxHeading {h : ℕ × List Char} (hl : atxHeading l = some h) :
    Candidate l := by
  simp only [atxHeading] at hl
  split at hl
  next hcond =>
      refine ⟨hcond.1, ?_⟩
      intro d hd
      rcases hcond.2 with hnil | hblank
      · rw [hnil] at hd
        cases hd
      · exact isSpace_of_head hblank hd
  next => cases hl

theorem heading_of_not_candidate {k : LeftLine} (h : ¬ Candidate k.line) : k.heading = none := by
  unfold LeftLine.heading
  split
  next =>
      cases hheading : atxHeading k.line with
      | none => rfl
      | some heading => exact absurd (candidate_of_atxHeading hheading) h
  next => rfl

theorem not_candidate_of_blank (h : ∀ d ∈ l, isSpace d = true) : ¬ Candidate l := by
  rintro ⟨⟨hone, -⟩, -⟩
  cases l with
  | nil => exact absurd hone (Nat.not_succ_le_zero 0)
  | cons d l =>
      have hne : ¬ (d == '#') = true := fun heq =>
        ne_hash_of_isSpace (h d List.mem_cons_self) (beq_iff_eq.mp heq)
      rw [List.takeWhile_cons_of_neg (p := (· == '#')) hne] at hone
      exact absurd hone (Nat.not_succ_le_zero 0)

theorem Closing.suffix {x y : List Char} (h : Closing (x ++ y)) : Closing y := by
  obtain ⟨w, m, heq, hw, hm⟩ := h
  rcases List.append_eq_append_iff.mp heq with ⟨a, hwa, hy⟩ | ⟨a, hxa, hma⟩
  · exact ⟨a, m, hy, fun d hd => hw d (hwa ▸ List.mem_append_right x hd), hm⟩
  · exact ⟨[], y, rfl, List.forall_mem_nil _, fun d hd => hm d (hma ▸ List.mem_append_right a hd)⟩

/-- Behind a heading a line of marks has too many for a heading. -/
theorem Orderly.not_candidate_of_marks {k : LeftLine} (h : Orderly true (k :: ks))
    (hk : ∀ d ∈ k.line, d = '#') : ¬ Candidate k.line := by
  have hdrop : k.line.dropWhile (· == '#') = [] :=
    List.dropWhile_eq_nil_iff.mpr fun d hd => beq_iff_eq.mpr (hk d hd)
  cases h with
  | other hnot _ => exact hnot
  | titled _ hblank _ _ _ =>
      rw [hdrop] at hblank
      rcases hblank with hsp | htab
      · cases hsp
      · cases htab
  | bare _ hblank _ _ =>
      rw [hdrop] at hblank
      rcases hblank with ⟨-, hb, -⟩ | hsp | htab
      · cases hb
      · cases hsp
      · cases htab

theorem Orderly.tail_of_blank {k : LeftLine} (h : Orderly true (k :: ks))
    (hk : ∀ d ∈ k.line, isSpace d = true) : Orderly true ks := by
  cases h with
  | other _ hrest =>
      rw [List.all_eq_true.mpr hk] at hrest
      exact hrest
  | titled hcandidate _ _ _ _ => exact absurd hcandidate (not_candidate_of_blank hk)
  | bare hcandidate _ _ _ => exact absurd hcandidate (not_candidate_of_blank hk)

/-- Marks that end a line behind a heading, with only blank lines between, are too many for a
heading. -/
theorem not_candidate_of_orderly {v h : List Char} (horderly : Orderly true ks)
    (hlines : ∀ k ∈ ks, '\n' ∉ k.line) (heq : behind (ks.map LeftLine.line) = v ++ (h ++ rest))
    (hv : ∀ d ∈ v, isSpace d = true) (hv1 : v.getLast? = some '\n') (hh : ∀ d ∈ h, d = '#')
    (hh0 : h ≠ []) (hrest : AtLineEnd rest) : ¬ Candidate h := by
  induction ks generalizing v with
  | nil =>
      have hnil : h = [] :=
        (List.append_eq_nil_iff.mp (List.append_eq_nil_iff.mp heq.symm).2).1
      exact absurd hnil hh0
  | cons k ks ih =>
      obtain ⟨hk, hks⟩ := List.forall_mem_cons.mp hlines
      rw [List.map_cons, behind_cons] at heq
      obtain ⟨v', hv'⟩ : ∃ v', v = '\n' :: v' := by
        cases v with
        | nil => cases hv1
        | cons d v => exact ⟨v, by rw [(List.cons.inj heq).1]⟩
      subst hv'
      have hinner : k.line ++ behind (ks.map LeftLine.line) = v' ++ (h ++ rest) :=
        (List.cons.inj heq).2
      have hblank : ∀ d ∈ v', isSpace d = true := fun d hd => hv d (List.mem_cons_of_mem _ hd)
      cases v' with
      | nil =>
          -- the marks are the whole line
          rw [List.nil_append] at hinner
          obtain ⟨more, hmore, hbehind⟩ := line_of_append hinner hk hrest
          have hnil : more = [] :=
            nil_of_marks (fun d hd => hh d (hmore ▸ List.mem_append_right _ hd))
              (hbehind ▸ atLineEnd_behind _)
          rw [hnil, List.append_nil] at hmore
          rw [hmore] at hh ⊢
          exact horderly.not_candidate_of_marks hh
      | cons e v' =>
          -- the line is blank
          rcases List.append_eq_append_iff.mp hinner with ⟨a, hva, hbehind⟩ | ⟨a, hka, -⟩
          · have hkblank : ∀ d ∈ k.line, isSpace d = true := fun d hd =>
              hblank d (hva ▸ List.mem_append_left a hd)
            have ha : a.getLast? = some '\n' := by
              rw [List.getLast?_cons_cons, hva] at hv1
              cases a with
              | nil =>
                  rw [List.append_nil] at hv1
                  exact absurd (List.mem_of_getLast? hv1) hk
              | cons d a => rwa [List.getLast?_append_of_ne_nil _ (List.cons_ne_nil d a)] at hv1
            have ha0 : ∀ d ∈ a, isSpace d = true :=
              fun d hd => hblank d (hva ▸ List.mem_append_right _ hd)
            exact ih (horderly.tail_of_blank hkblank) hks hbehind ha0 ha
          · rw [List.getLast?_cons_cons] at hv1
            have hmem : '\n' ∈ k.line := by
              rw [hka]
              exact List.mem_append_left a (List.mem_of_getLast? hv1)
            exact absurd hmem hk

/-- Where the title agrees, trimming it gives the text of the heading. -/
theorem stripChars_title {w c : List Char} {d : Char} (hw : ∀ e ∈ w, isSpace e = true)
    (hw0 : w ≠ []) (hd : isSpace d = false) (hagrees : TitleAgrees (w ++ d :: c)) :
    stripChars (title (d :: c)) = headingText (w ++ d :: c) := by
  have hkeeps : (d :: c).rdropWhile isSpace = d :: c.rdropWhile isSpace :=
    rdropWhile_append_of_not hd [] c
  have hspace : (w ++ d :: c).rdropWhile isSpace = w ++ (d :: c).rdropWhile isSpace := by
    rw [rdropWhile_append_of_not hd, hkeeps]
  have hmark : ∀ x, (w ++ x).rdropWhile (· == '#') = w ++ x.rdropWhile (· == '#') := by
    intro x
    have hlast : (w.getLast hw0 == '#') = false := by
      rw [beq_eq_false_iff_ne]
      exact ne_hash_of_isSpace (hw _ (List.getLast_mem hw0))
    calc (w ++ x).rdropWhile (· == '#')
        = (w.dropLast ++ w.getLast hw0 :: x).rdropWhile (· == '#') := by
          rw [List.append_cons, List.dropLast_append_getLast]
      _ = w.dropLast ++ w.getLast hw0 :: x.rdropWhile (· == '#') :=
          rdropWhile_append_of_not (p := (· == '#')) hlast _ x
      _ = w ++ x.rdropWhile (· == '#') := by
          rw [List.append_cons, List.dropLast_append_getLast]
  have hvisible : (w ++ (d :: c).rdropWhile isSpace).getLast? ≠ some ' ' := by
    have hne : (d :: c).rdropWhile isSpace ≠ [] := hkeeps ▸ List.cons_ne_nil d _
    rw [List.getLast?_append_of_ne_nil _ hne, List.getLast?_eq_some_getLast hne]
    intro heq
    have hnot := List.rdropWhile_last_not isSpace _ hne
    rw [Option.some.inj heq] at hnot
    exact hnot (by decide)
  have hwhole : stripChars (w ++ d :: c) = stripChars (d :: c) := stripChars_append_left hw _
  rw [TitleAgrees, hspace, hmark] at hagrees
  rw [title, stripChars_rdropWhile]
  simp only [headingText, hspace, hmark]
  by_cases htrail : (d :: c).rdropWhile isSpace = d :: c
  · rw [htrail] at hagrees hvisible ⊢
    rcases hagrees with hsame | hclosing
    · rw [(List.append_right_inj w).mp hsame, if_neg hvisible, hwhole]
    · rw [if_pos (hclosing.mpr rfl), stripChars_append_left hw]
  · -- a blank at the end keeps the marks before it from the expression
    have hnone : (d :: c).rdropWhile (· == '#') = d :: c := by
      rw [List.rdropWhile_eq_self_iff]
      intro hne heq
      apply htrail
      rw [List.rdropWhile_eq_self_iff]
      exact fun _ hspace => ne_hash_of_isSpace hspace (beq_iff_eq.mp heq)
    rw [hnone, if_neg, hwhole]
    rcases hagrees with hsame | hclosing
    · rw [hsame]
      exact hvisible
    · intro hblank
      exact htrail ((List.append_right_inj w).mp (hclosing.mp hblank))

/-- What a match takes of the following lines has no heading in it. -/
theorem headings_swallowed {before before' : Option Char} {x : List Char}
    (horderly : Orderly true ks) (hlines : ∀ k ∈ ks, '\n' ∉ k.line)
    (heq : behind (ks.map LeftLine.line) = x ++ rest) (hx : Closing x) (hrest : AtLineEnd rest) :
    headings before rest = headings before' (behind (ks.map LeftLine.line)) := by
  obtain ⟨v, h, rfl, hv, hh⟩ := hx
  rw [List.append_assoc] at heq
  rw [heq, headings_blank hv]
  by_cases hh0 : h = []
  · rw [hh0, List.nil_append]
    exact headings_atLineEnd hrest
  · have hinline : '\n' ∉ h := fun hmem => absurd (hh _ hmem) (by decide)
    cases hlast : v.getLast? with
    | none =>
        -- the line ends before any marks
        rw [List.getLast?_eq_none_iff.mp hlast, List.nil_append] at heq
        exact absurd (nil_of_marks hh (heq ▸ atLineEnd_behind _)) hh0
    | some e =>
        rw [lastOf, hlast, Option.some_or]
        by_cases he : e = '\n'
        · have hnot : ¬ Candidate h :=
            not_candidate_of_orderly horderly hlines heq hv (he ▸ hlast) hh hh0 hrest
          exact (headings_of_not_candidate hnot hinline hrest).symm
        · exact (headings_within he hinline hrest).symm

/-- Behind a closing run nothing more is taken. -/
theorem nil_of_closing {z x : List Char} (h : Closing (z ++ x)) (hz : z.getLast? = some '#')
    (hx : AtLineEnd (x ++ rest)) : x = [] := by
  obtain ⟨w, m, heq, hw, hm⟩ := h
  have hmarks : ∀ d ∈ x, d = '#' := by
    rcases List.append_eq_append_iff.mp heq with ⟨a, hwa, -⟩ | ⟨a, -, hma⟩
    · have hhash := hw '#' (hwa ▸ List.mem_append_left a (List.mem_of_getLast? hz))
      exact absurd rfl (ne_hash_of_isSpace hhash)
    · exact fun d hd => hm d (hma ▸ List.mem_append_right a hd)
  exact nil_of_marks hmarks hx

theorem headings_behind {before : Option Char} (ks : List LeftLine) :
    headings before (behind (ks.map LeftLine.line)) = headings (some '\n') (leftText ks) := by
  cases ks with
  | nil => exact headings_nil.trans headings_nil.symm
  | cons k ks =>
      rw [List.map_cons, behind_cons, headings_newline]
      rfl

/-- The expression needs something behind the marks. -/
theorem headings_of_marks {before : Option Char} (hl : ∀ d ∈ l, d = '#') :
    headings before l = [] := by
  cases l with
  | nil => exact headings_nil
  | cons d l =>
      have hnone : run headingRe before (d :: l) = none := by
        apply run_eq_none_of_not_takes
        rintro parts rest ⟨-, x, t, parts', hs, -, -, -, ⟨y, t', parts'', ht, hy, hone, -⟩, -⟩
        cases y with
        | nil => exact absurd hone (Nat.not_succ_le_zero 0)
        | cons e y =>
            have he : e = '#' := hl e (by rw [hs, ht]; simp)
            exact ne_hash_of_isSpace (hy e List.mem_cons_self) he
      have hd : d ≠ '\n' := by
        rw [hl d List.mem_cons_self]
        decide
      have hinline : '\n' ∉ l := by
        intro hmem
        exact absurd (hl _ (List.mem_cons_of_mem d hmem)) (by decide)
      calc headings before (d :: l)
          = headings (some d) (l ++ []) := by rw [headings_of_none hnone, List.append_nil]
        _ = headings none [] := headings_within hd hinline (.inl rfl)
        _ = [] := headings_nil

theorem atxHeading_of_candidate (h : Candidate l)
    (hblank : l.dropWhile (· == '#') = [] ∨ (l.dropWhile (· == '#')).head? = some ' ' ∨
      (l.dropWhile (· == '#')).head? = some '\t') :
    atxHeading l =
      some ((l.takeWhile (· == '#')).length, headingText (l.dropWhile (· == '#'))) :=
  if_pos ⟨h.1, hblank⟩

theorem headingText_of_blank (h : ∀ d ∈ l, isSpace d = true) : headingText l = [] := by
  have hnil : (l.rdropWhile isSpace).rdropWhile (· == '#') = [] := by
    rw [List.rdropWhile_eq_nil_iff.mpr h, List.rdropWhile_nil]
  simp only [headingText, hnil]
  exact stripChars_eq_nil_iff.mpr h

/-- A heading with a title is found with the text of its own line. -/
theorem headings_titled {before : Option Char} {m w c : List Char} {d : Char}
    (hstart : before = none ∨ before = some '\n') (hm : ∀ e ∈ m, e = '#') (hone : 1 ≤ m.length)
    (hsix : m.length ≤ 6) (hw : ∀ e ∈ w, isSpace e = true) (hw0 : w ≠ [])
    (hd : isSpace d = false) (hline : '\n' ∉ d :: c) (hagrees : TitleAgrees (w ++ d :: c))
    (hlines : ∀ k ∈ ks, '\n' ∉ k.line) (hrest : Orderly ((d :: c).getLast? != some '#') ks) :
    headings before (m ++ (w ++ (d :: c ++ behind (ks.map LeftLine.line)))) =
      (m.length, headingText (w ++ d :: c)) :: headings (some '\n') (leftText ks) := by
  have hafter : AtLineEnd (behind (ks.map LeftLine.line)) := atLineEnd_behind _
  have hvisible : ∀ e, (d :: c ++ behind (ks.map LeftLine.line)).head? = some e →
      isSpace e = false := by
    intro e he
    rw [List.cons_append, List.head?_cons, Option.some.injEq] at he
    exact he ▸ hd
  obtain ⟨w', m', rest, hrun, heq, hclosing, hend⟩ :=
    run_heading_of_title hstart hm hone hsix hw hw0 hvisible hline hafter
  -- what is matched behind the title: the rest of the line, and `more` of the lines behind
  obtain ⟨z, hz, -⟩ := exists_title (d :: c)
  have hbehind : z ++ behind (ks.map LeftLine.line) = (w' ++ m') ++ rest := by
    have hsame : title (d :: c) ++ (z ++ behind (ks.map LeftLine.line)) =
        title (d :: c) ++ (w' ++ m' ++ rest) := by
      rw [← List.append_assoc, ← hz]
      exact heq
    exact (List.append_right_inj _).mp hsame
  have hinline : '\n' ∉ z := fun hmem => hline (hz ▸ List.mem_append_right _ hmem)
  obtain ⟨more, hmore, hks⟩ := line_of_append hbehind hinline hend
  rw [hmore] at hclosing
  have hswallowed : headings (lastOf before [m, w, title (d :: c), w', m'].flatten) rest =
      headings none (behind (ks.map LeftLine.line)) := by
    by_cases hhash : (d :: c).getLast? = some '#'
    · have hlast : z.getLast? = some '#' := by
        have hz0 : z ≠ [] := by
          intro hnil
          rw [hnil, List.append_nil] at hz
          rw [hz] at hhash
          obtain ⟨e, z', hsame, -⟩ := (title_getLast hhash).2 rfl
          rw [← hz] at hsame
          have hnil' := List.self_eq_append_right.mp hsame
          cases hnil'
        rw [hz, List.getLast?_append_of_ne_nil _ hz0] at hhash
        exact hhash
      have hnil : more = [] := nil_of_closing hclosing hlast (hks ▸ hafter)
      rw [hks, hnil, List.nil_append]
      exact headings_atLineEnd hend
    · rw [bne_iff_ne.mpr hhash] at hrest
      exact headings_swallowed hrest hlines hks hclosing.suffix hend
  have hshort : rest.length < (m ++ (w ++ (d :: c ++ behind (ks.map LeftLine.line)))).length := by
    rw [heq]
    simp only [List.length_append]
    omega
  rw [headings_of_some hrun hshort, hswallowed, headings_behind]
  exact congrArg (· :: _) (Prod.ext rfl (stripChars_title hw hw0 hd hagrees))

/-- A heading without a text is found if nothing but blank lines follows. -/
theorem headings_bare {before : Option Char} {m w : List Char}
    (hstart : before = none ∨ before = some '\n') (hm : ∀ e ∈ m, e = '#') (hone : 1 ≤ m.length)
    (hsix : m.length ≤ 6) (hw : ∀ e ∈ w, isSpace e = true) (hw0 : w ≠ []) :
    headings before (m ++ w) = [(m.length, [])] := by
  have hrun := run_heading_of_blank hstart hm hone hsix hw hw0
  have hshort : ([] : List Char).length < (m ++ w).length := by
    rw [List.length_append, List.length_nil]
    omega
  rw [headings_of_some hrun hshort, headings_nil]
  rfl

theorem isSpace_of_mem_behind (h : ∀ k ∈ ks, k.line.all isSpace = true) {d : Char}
    (hd : d ∈ behind (ks.map LeftLine.line)) : isSpace d = true := by
  induction ks with
  | nil => cases hd
  | cons k ks ih =>
      obtain ⟨hk, hks⟩ := List.forall_mem_cons.mp h
      rw [List.map_cons, behind_cons, List.mem_cons, List.mem_append] at hd
      rcases hd with rfl | hline | hbehind
      · decide
      · exact List.all_eq_true.mp hk d hline
      · exact ih hks hbehind

theorem of_mem_marks {d : Char} (hd : d ∈ l.takeWhile (· == '#')) : d = '#' := by
  have hmark : (d == '#') = true := List.mem_takeWhile_imp (p := (· == '#')) hd
  exact beq_iff_eq.mp hmark

theorem exists_visible (h : l.all isSpace = false) :
    ∃ w d c, l = w ++ d :: c ∧ (∀ e ∈ w, isSpace e = true) ∧ isSpace d = false := by
  induction l with
  | nil => cases h
  | cons e l ih =>
      by_cases he : isSpace e = true
      · rw [List.all_cons, he, Bool.true_and] at h
        obtain ⟨w, d, c, rfl, hw, hd⟩ := ih h
        exact ⟨e :: w, d, c, rfl, List.forall_mem_cons.mpr ⟨he, hw⟩, hd⟩
      · exact ⟨[], e, l, rfl, List.forall_mem_nil _, Bool.eq_false_of_not_eq_true he⟩

theorem headings_titled_line {before : Option Char} {seen : Bool}
    (hstart : before = none ∨ before = some '\n') (hcandidate : Candidate l)
    (hblank : (l.dropWhile (· == '#')).head? = some ' ' ∨
      (l.dropWhile (· == '#')).head? = some '\t')
    (htitle : (l.dropWhile (· == '#')).all isSpace = false)
    (hagrees : TitleAgrees (l.dropWhile (· == '#'))) (hl : '\n' ∉ l)
    (hlines : ∀ k ∈ ks, '\n' ∉ k.line) (hrest : Orderly (l.getLast? != some '#') ks) :
    headings before (leftText (⟨l, seen⟩ :: ks)) =
      ((l.takeWhile (· == '#')).length, headingText (l.dropWhile (· == '#'))) ::
        headings (some '\n') (leftText ks) := by
  obtain ⟨w, d, c, hsplit, hw, hd⟩ := exists_visible htitle
  have hw0 : w ≠ [] := by
    rintro rfl
    have hhead : (l.dropWhile (· == '#')).head? = some d := by
      rw [hsplit]
      rfl
    rw [isSpace_of_head hblank hhead] at hd
    cases hd
  have hwhole : l.takeWhile (· == '#') ++ (w ++ d :: c) = l :=
    hsplit ▸ List.takeWhile_append_dropWhile
  have hlast : l.getLast? = (d :: c).getLast? := by
    rw [← hwhole, ← List.append_assoc, List.getLast?_append_of_ne_nil _ (List.cons_ne_nil d c)]
  have hline : '\n' ∉ d :: c := by
    intro hmem
    apply hl
    rw [← hwhole]
    exact List.mem_append_right _ (List.mem_append_right w hmem)
  have htext : leftText (⟨l, seen⟩ :: ks) =
      l.takeWhile (· == '#') ++ (w ++ (d :: c ++ behind (ks.map LeftLine.line))) := by
    rw [← List.append_assoc w, ← List.append_assoc (l.takeWhile _), hwhole]
    rfl
  rw [hlast] at hrest
  rw [hsplit] at hagrees
  rw [htext, hsplit]
  exact headings_titled hstart (fun _ he => of_mem_marks he) hcandidate.1.1 hcandidate.1.2
    hw hw0 hd hline hagrees hlines hrest

theorem headings_bare_line {before : Option Char} {seen : Bool}
    (hstart : before = none ∨ before = some '\n') (hcandidate : Candidate l)
    (hblank : l.dropWhile (· == '#') = [] → ks ≠ [])
    (htitle : (l.dropWhile (· == '#')).all isSpace = true)
    (hrest : ∀ k ∈ ks, k.line.all isSpace = true) :
    headings before (leftText (⟨l, seen⟩ :: ks)) = [((l.takeWhile (· == '#')).length, [])] := by
  have hblanks : ∀ e ∈ l.dropWhile (· == '#') ++ behind (ks.map LeftLine.line),
      isSpace e = true := by
    intro e he
    rcases List.mem_append.mp he with he | he
    · exact List.all_eq_true.mp htitle e he
    · exact isSpace_of_mem_behind hrest he
  have hsome : l.dropWhile (· == '#') ++ behind (ks.map LeftLine.line) ≠ [] := by
    intro hnil
    obtain ⟨hdrop, hbehind⟩ := List.append_eq_nil_iff.mp hnil
    have hks : ks.map LeftLine.line ≠ [] := fun hmap => hblank hdrop (List.map_eq_nil_iff.mp hmap)
    rw [behind_of_ne_nil hks] at hbehind
    cases hbehind
  have htext : leftText (⟨l, seen⟩ :: ks) = l.takeWhile (· == '#') ++
      (l.dropWhile (· == '#') ++ behind (ks.map LeftLine.line)) := by
    rw [leftText_cons, ← List.append_assoc, List.takeWhile_append_dropWhile]
  rw [htext]
  exact headings_bare hstart (fun _ he => of_mem_marks he) hcandidate.1.1 hcandidate.1.2 hblanks
    hsome

/-- Of lines in order the expression finds the headings. -/
theorem headings_leftText {b : Bool} (horderly : Orderly b ks) (hlines : ∀ k ∈ ks, '\n' ∉ k.line)
    {before : Option Char} (hstart : before = none ∨ before = some '\n') :
    headings before (leftText ks) = ks.filterMap LeftLine.heading := by
  induction horderly generalizing before with
  | nil => exact headings_nil
  | @other b k ks hnot _ ih =>
      obtain ⟨hk, hks⟩ := List.forall_mem_cons.mp hlines
      have hskips : headings before (k.line ++ behind (ks.map LeftLine.line)) =
          headings none (behind (ks.map LeftLine.line)) :=
        headings_of_not_candidate hnot hk (atLineEnd_behind _)
      rw [List.filterMap_cons_none (heading_of_not_candidate hnot), leftText_cons, hskips,
        headings_behind]
      exact ih hks (.inr rfl)
  | last hmarks =>
      rw [leftText_cons, List.map_nil, behind, List.flatMap_nil, List.append_nil,
        headings_of_marks hmarks]
      rfl
  | @titled b l ks hcandidate hblank htitle hagrees hrest ih =>
      obtain ⟨hl, hks⟩ := List.forall_mem_cons.mp hlines
      have hheading : LeftLine.heading ⟨l, true⟩ = some _ :=
        atxHeading_of_candidate hcandidate (.inr hblank)
      rw [List.filterMap_cons_some hheading, ← ih hks (.inr rfl)]
      exact headings_titled_line hstart hcandidate hblank htitle hagrees hl hks hrest
  | @bare b l ks hcandidate hblank htitle hrest =>
      have hnone : ks.filterMap LeftLine.heading = [] := by
        rw [List.filterMap_eq_nil_iff]
        intro k hk
        exact heading_of_not_candidate
          (not_candidate_of_blank fun d hd => List.all_eq_true.mp (hrest k hk) d hd)
      have hheading : LeftLine.heading ⟨l, true⟩ = some _ :=
        atxHeading_of_candidate hcandidate (hblank.imp_left And.left)
      have hmore : l.dropWhile (· == '#') = [] → ks ≠ [] := by
        intro hdrop
        rw [hdrop] at hblank
        rcases hblank with ⟨-, -, hks⟩ | hspace | htab
        · exact hks
        · cases hspace
        · cases htab
      rw [List.filterMap_cons_some hheading, hnone, headingText_of_blank (List.all_eq_true.mp htitle)]
      exact headings_bare_line hstart hcandidate hmore htitle hrest

end Order

end Lour.Rag
