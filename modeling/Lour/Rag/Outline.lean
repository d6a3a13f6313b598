import Lour.Rag.Headings
/-!
# The outline of a document

The lines that are left of a document when the fence expression has been taken out of it,
and the documents of which the loader gives the headings.
-/

namespace Lour.Rag

open Lour.Lib Lour.Lib.Python Lour.Lib.Regex

/-! ## What the fence expression leaves -/

/-- Of a text that `after` follows, what is left between the matches that begin in it. -/
inductive Spans (after : List Char) : List Char → List Char → Prop
  | done {x : List Char} (hx : Whole x after) : Spans after x x
  | span {p x q left : List Char} (hp : Free p) (hx : Free x) (hq : Spans after q left) :
      Spans after (p ++ (fence ++ (x ++ (fence ++ q)))) (p ++ left)

/-- The lines that are left.  A line in which no match begins stays as it is; lines that
matches join are one afterwards, and none of them may be a heading. -/
inductive Unfenced : Option FenceMark → List (List Char) → List LeftLine → Prop
  | nil {f : Option FenceMark} : Unfenced f [] []
  | line {f : Option FenceMark} {l : List Char} {ls : List (List Char)} {ks : List LeftLine}
      (hl : Whole l (behind ls)) (hrest : Unfenced (fenceAfter f l) ls ks) :
      Unfenced f (l :: ls) (⟨l, outside f l⟩ :: ks)
  | spans {f : Option FenceMark} {ls rest : List (List Char)} {left : List Char}
      {ks : List LeftLine} (hne : ls ≠ []) (hspans : Spans (behind rest) (linesText ls) left)
      (hleft : '\n' ∉ left) (hnone : atxFrom f ls = [])
      (hrest : Unfenced (ls.foldl fenceAfter f) rest ks) :
      Unfenced f (ls ++ rest) (⟨left, false⟩ :: ks)

section Leaving

variable {f : Option FenceMark} {ls : List (List Char)} {ks : List LeftLine}

theorem strips_spans {after text left kept : List Char} (h : Spans after text left)
    (hafter : Strips after kept) : Strips (text ++ after) (left ++ kept) := by
  induction h with
  | done hx => exact strips_whole hx hafter
  | span hp hx _ ih =>
      simp only [List.append_assoc]
      exact strips_free hp (strips_span hx ih)

theorem Unfenced.eq_nil_iff (h : Unfenced f ls ks) : ks = [] ↔ ls = [] := by
  cases h with
  | nil => exact iff_of_true rfl rfl
  | line _ _ => exact iff_of_false (List.cons_ne_nil _ _) (List.cons_ne_nil _ _)
  | spans hne _ _ _ _ =>
      apply iff_of_false (List.cons_ne_nil _ _)
      intro hnil
      exact hne (List.append_eq_nil_iff.mp hnil).1

theorem strips_behind (h : Unfenced f ls ks) (hs : Strips (linesText ls) (leftText ks)) :
    Strips (behind ls) (behind (ks.map LeftLine.line)) := by
  by_cases hls : ls = []
  · rw [hls, h.eq_nil_iff.mpr hls]
    exact strips_nil
  · have hks : ks.map LeftLine.line ≠ [] := by
      rw [Ne, List.map_eq_nil_iff, h.eq_nil_iff]
      exact hls
    rw [behind_of_ne_nil hls, behind_of_ne_nil hks]
    apply strips_char _ hs
    intro t ht
    exact absurd ht (fence_not_begins (by decide))

theorem Unfenced.strips (h : Unfenced f ls ks) : Strips (linesText ls) (leftText ks) := by
  induction h with
  | nil => exact strips_nil
  | line hl hrest ih =>
      rw [linesText, leftText_cons]
      exact strips_whole hl (strips_behind hrest ih)
  | spans hne hspans _ _ hrest ih =>
      rw [linesText_append hne, leftText_cons]
      exact strips_spans hspans (strips_behind hrest ih)

theorem atxFrom_append (f : Option FenceMark) (ls ms : List (List Char)) :
    atxFrom f (ls ++ ms) = atxFrom f ls ++ atxFrom (ls.foldl fenceAfter f) ms := by
  induction ls generalizing f with
  | nil => rfl
  | cons l ls ih =>
      rw [List.cons_append, atxFrom, atxFrom, ih, List.foldl_cons, List.append_assoc]

/-- The headings of a document are those of the lines that are left. -/
theorem Unfenced.headings (h : Unfenced f ls ks) :
    ks.filterMap LeftLine.heading = atxFrom f ls := by
  induction h with
  | nil => rw [List.filterMap_nil, atxFrom]
  | @line f l ls ks _ _ ih =>
      have hsame : LeftLine.heading ⟨l, outside f l⟩ = headingAt f l := rfl
      rw [atxFrom, ← ih, List.filterMap_cons, hsame]
      cases headingAt f l <;> rfl
  | spans _ _ _ hnone _ ih =>
      rw [atxFrom_append, hnone, List.nil_append, ← ih]
      exact List.filterMap_cons_none rfl

theorem Unfenced.not_newline (h : Unfenced f ls ks) (hls : ∀ l ∈ ls, '\n' ∉ l) :
    ∀ k ∈ ks, '\n' ∉ k.line := by
  induction h with
  | nil => exact List.forall_mem_nil _
  | line _ _ ih =>
      obtain ⟨hl, hrest⟩ := List.forall_mem_cons.mp hls
      exact List.forall_mem_cons.mpr ⟨hl, ih hrest⟩
  | spans _ _ hleft _ _ ih =>
      have hrest := (List.forall_mem_append.mp hls).2
      exact List.forall_mem_cons.mpr ⟨hleft, ih hrest⟩

end Leaving

/-! ## The headings that the loader gives -/

/-- Nothing is taken out of a heading, and what is left is in order. -/
def Tidy (text : List Char) : Prop :=
  ∃ ks, Unfenced none (textLines text) ks ∧ Orderly false ks

theorem headings_of_tidy (text : List Char) (h : Tidy text) :
    extractHeadings text = atxHeadings text := by
  obtain ⟨ks, hunfenced, horderly⟩ := h
  have hremove : remove fenceRe text = leftText ks := by
    have hstrips := hunfenced.strips
    rw [linesText_textLines] at hstrips
    exact remove_of_strips hstrips
  have hlines : ∀ k ∈ ks, '\n' ∉ k.line :=
    hunfenced.not_newline (not_newline_of_mem_textLines text)
  calc extractHeadings text
      = headings none (leftText ks) := by rw [extractHeadings, hremove, headings]
    _ = ks.filterMap LeftLine.heading := headings_leftText horderly hlines (.inl rfl)
    _ = atxHeadings text := hunfenced.headings

/-- A document with a closing run and a fenced block. -/
theorem headings_of_fenced :
    extractHeadings "# T #\n```\n# x\n```\n## U".toList = [(1, ['T']), (2, ['U'])] := by
  have htop : Candidate "# T #".toList := ⟨by decide, fun d hd => by cases hd; decide⟩
  have hlast : Candidate "## U".toList := ⟨by decide, fun d hd => by cases hd; decide⟩
  have hblock : Spans (behind ["## U".toList])
      (linesText ["```".toList, "# x".toList, "```".toList]) [] :=
    .span (p := []) (x := "\n# x\n".toList) (q := []) (by decide +kernel) (by decide +kernel)
      (.done (whole_of_not_mem List.not_mem_nil))
  have hunfenced : Unfenced none (textLines "# T #\n```\n# x\n```\n## U".toList)
      [⟨"# T #".toList, true⟩, ⟨[], false⟩, ⟨"## U".toList, true⟩] :=
    .line (whole_of_not_mem (by decide))
      (.spans (List.cons_ne_nil _ _) hblock List.not_mem_nil (by decide +kernel)
        (.line (whole_of_not_mem (by decide)) .nil))
  have horderly : Orderly false
      [⟨"# T #".toList, true⟩, ⟨[], false⟩, ⟨"## U".toList, true⟩] :=
    .titled htop (.inl rfl) (by decide) (.inr (by decide))
      (.other (not_candidate_of_blank (List.forall_mem_nil _))
        (.titled hlast (.inl rfl) (by decide) (.inl (by decide)) .nil))
  have htidy : Tidy "# T #\n```\n# x\n```\n## U".toList := ⟨_, hunfenced, horderly⟩
  exact (headings_of_tidy _ htidy).trans (by decide +kernel)

/-- Marks alone on a line are given the text of the line behind them. -/
theorem headings_of_next_line :
    extractHeadings "#\nIntro".toList = [(1, "Intro".toList)] ∧
      atxHeadings "#\nIntro".toList = [(1, [])] := by
  have hremove : remove fenceRe "#\nIntro".toList = "#\nIntro".toList :=
    remove_of_strips (strips_whole
      (whole_of_not_mem (x := "#\nIntro".toList) (by decide)) strips_nil)
  have hrun : run headingRe none "#\nIntro".toList =
      some ([['#'], ['\n'], "Intro".toList, [], []], []) := by
    decide +kernel
  refine ⟨?_, by decide +kernel⟩
  calc extractHeadings "#\nIntro".toList
      = headings none "#\nIntro".toList := by rw [extractHeadings, hremove, headings]
    _ = headingOf [['#'], ['\n'], "Intro".toList, [], []] :: [] := by
      rw [headings_of_some hrun (by decide), headings_nil]
    _ = [(1, "Intro".toList)] := by decide +kernel

end Lour.Rag
