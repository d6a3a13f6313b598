import Lour.Lib.Python
/-!
# Lines

`str.splitlines`, and the lines of a text that is put together from lines.
-/

namespace Lour.Lib.Python

/-- A line boundary of `str.splitlines`. -/
def isLineBreak (c : Char) : Bool :=
  let n := c.toNat
  (0x0a ≤ n && n ≤ 0x0d) || (0x1c ≤ n && n ≤ 0x1e) || n == 0x85 || n == 0x2028 || n == 0x2029

theorem isLineBreak_newline : isLineBreak '\n' = true := by decide

theorem newline_ne_return : '\n' ≠ '\r' := by decide

/-- The lines of a text whose first line has `line` before it. -/
def linesFrom (line : List Char) : List Char → List (List Char)
  | [] => if line.isEmpty then [] else [line]
  | '\r' :: '\n' :: cs => line :: linesFrom [] cs
  | c :: cs => if isLineBreak c then line :: linesFrom [] cs else linesFrom (line ++ [c]) cs

/-- `s.splitlines()`. -/
def splitlines (s : String) : List (List Char) := linesFrom [] s.toList

theorem linesFrom_char {c : Char} (hc : isLineBreak c = false) (line cs : List Char) :
    linesFrom line (c :: cs) = linesFrom (line ++ [c]) cs := by
  rw [linesFrom, hc, if_neg Bool.false_ne_true]
  rintro cs' rfl
  cases hc

theorem linesFrom_break {c : Char} (hc : isLineBreak c = true) (hcr : c ≠ '\r')
    (line cs : List Char) : linesFrom line (c :: cs) = line :: linesFrom [] cs := by
  rw [linesFrom, hc, if_pos rfl]
  rintro cs' rfl
  exact absurd rfl hcr

theorem linesFrom_append {p : List Char} (hp : ∀ c ∈ p, isLineBreak c = false)
    (line cs : List Char) : linesFrom line (p ++ cs) = linesFrom (line ++ p) cs := by
  induction p generalizing line with
  | nil => rw [List.nil_append, List.append_nil]
  | cons c p ih =>
      obtain ⟨hc, hrest⟩ := List.forall_mem_cons.mp hp
      calc linesFrom line (c :: (p ++ cs)) = linesFrom (line ++ [c]) (p ++ cs) :=
            linesFrom_char hc line (p ++ cs)
        _ = linesFrom (line ++ [c] ++ p) cs := ih hrest (line ++ [c])
        _ = linesFrom (line ++ c :: p) cs := by rw [List.append_assoc, List.singleton_append]

/-- A line ends where its first boundary is. -/
theorem linesFrom_line {p : List Char} {c : Char} (hp : ∀ d ∈ p, isLineBreak d = false)
    (hc : isLineBreak c = true) (hcr : c ≠ '\r') (cs : List Char) :
    linesFrom [] (p ++ c :: cs) = p :: linesFrom [] cs := by
  rw [linesFrom_append hp, linesFrom_break hc hcr, List.nil_append]

theorem exists_first_break {cs : List Char} {c : Char} (hmem : c ∈ cs)
    (hc : isLineBreak c = true) :
    ∃ p d q, cs = p ++ d :: q ∧ (∀ e ∈ p, isLineBreak e = false) ∧ isLineBreak d = true := by
  induction cs with
  | nil => cases hmem
  | cons d cs ih =>
      by_cases hd : isLineBreak d = true
      · exact ⟨[], d, cs, rfl, List.forall_mem_nil _, hd⟩
      · have hne : c ≠ d := by
          rintro rfl
          exact hd hc
        obtain ⟨p, e, q, rfl, hp, he⟩ := ih ((List.mem_cons.mp hmem).resolve_left hne)
        refine ⟨d :: p, e, q, rfl, ?_, he⟩
        exact List.forall_mem_cons.mpr ⟨Bool.eq_false_of_not_eq_true hd, hp⟩

/-- `line.rstrip("\n")`. -/
def rstripNewlines (line : List Char) : List Char := line.rdropWhile (· == '\n')

theorem rstripNewlines_of_line {line : List Char} (h : ∀ c ∈ line, isLineBreak c = false) :
    rstripNewlines line = line := by
  rw [rstripNewlines, List.rdropWhile_eq_self_iff]
  intro hne heq
  have hlast := h _ (List.getLast_mem hne)
  rw [beq_iff_eq.mp heq] at hlast
  cases hlast

/-! ## Lines that a newline ends, and nothing else -/

/-- The lines of a text; there is always a first one. -/
def textLines : List Char → List (List Char)
  | [] => [[]]
  | c :: cs =>
      if c = '\n' then [] :: textLines cs
      else (c :: (textLines cs).headD []) :: (textLines cs).tail

/-- What stands behind a line that other lines follow. -/
def behind (ls : List (List Char)) : List Char := ls.flatMap fun l => '\n' :: l

/-- The text that has these lines. -/
def linesText : List (List Char) → List Char
  | [] => []
  | l :: ls => l ++ behind ls

/-- A line may end before this text. -/
def AtLineEnd (s : List Char) : Prop := s = [] ∨ s.head? = some '\n'

theorem behind_cons (l : List Char) (ls : List (List Char)) :
    behind (l :: ls) = '\n' :: (l ++ behind ls) := by
  rw [behind, List.flatMap_cons, List.cons_append, behind]

theorem behind_append (ls ms : List (List Char)) :
    behind (ls ++ ms) = behind ls ++ behind ms := by
  rw [behind, List.flatMap_append, behind, behind]

theorem behind_of_ne_nil {ls : List (List Char)} (h : ls ≠ []) :
    behind ls = '\n' :: linesText ls := by
  cases ls with
  | nil => exact absurd rfl h
  | cons l ls => rw [behind_cons, linesText]

theorem linesText_append {ls : List (List Char)} (h : ls ≠ []) (ms : List (List Char)) :
    linesText (ls ++ ms) = linesText ls ++ behind ms := by
  cases ls with
  | nil => exact absurd rfl h
  | cons l ls => rw [List.cons_append, linesText, linesText, behind_append, List.append_assoc]

theorem AtLineEnd.eq_newline {d : Char} {s : List Char} (h : AtLineEnd (d :: s)) : d = '\n' := by
  rcases h with hnil | hhead
  · cases hnil
  · exact Option.some.inj hhead

theorem atLineEnd_behind (ls : List (List Char)) : AtLineEnd (behind ls) := by
  cases ls with
  | nil => exact .inl rfl
  | cons l ls => exact .inr (by rw [behind_cons, List.head?_cons])

/-- A text has a first line, and other lines behind. -/
theorem textLines_eq (s : List Char) :
    ∃ l ls, textLines s = l :: ls ∧ s = l ++ behind ls ∧ '\n' ∉ l ∧ ∀ m ∈ ls, '\n' ∉ m := by
  induction s with
  | nil => exact ⟨[], [], rfl, rfl, List.not_mem_nil, List.forall_mem_nil _⟩
  | cons c cs ih =>
      obtain ⟨l, ls, hlines, hcs, hl, hls⟩ := ih
      by_cases hc : c = '\n'
      · refine ⟨[], l :: ls, ?_, ?_, List.not_mem_nil, List.forall_mem_cons.mpr ⟨hl, hls⟩⟩
        · rw [textLines, if_pos hc, hlines]
        · rw [behind_cons, hc, hcs, List.nil_append]
      · refine ⟨c :: l, ls, ?_, ?_, ?_, hls⟩
        · rw [textLines, if_neg hc, hlines, List.headD_cons, List.tail_cons]
        · rw [hcs, List.cons_append]
        · rw [List.mem_cons, not_or]
          exact ⟨Ne.symm hc, hl⟩

theorem linesText_textLines (s : List Char) : linesText (textLines s) = s := by
  obtain ⟨l, ls, hlines, hs, -⟩ := textLines_eq s
  rw [hlines, linesText, ← hs]

theorem not_newline_of_mem_textLines (s : List Char) : ∀ l ∈ textLines s, '\n' ∉ l := by
  obtain ⟨l, ls, hlines, -, hl, hls⟩ := textLines_eq s
  rw [hlines]
  exact List.forall_mem_cons.mpr ⟨hl, hls⟩

/-- What is at the front of a line and behind it is in the line, if a line may end after it. -/
theorem line_of_append {l x rest : List Char} {after : List Char} (h : l ++ after = x ++ rest)
    (hl : '\n' ∉ l) (hrest : AtLineEnd rest) : ∃ more, x = l ++ more ∧ after = more ++ rest := by
  rcases List.append_eq_append_iff.mp h with ⟨more, hx, hafter⟩ | ⟨more, hx, hmore⟩
  · exact ⟨more, hx, hafter⟩
  · cases more with
    | nil =>
        rw [List.append_nil] at hx
        exact ⟨[], by rw [hx, List.append_nil], hmore.symm⟩
    | cons c more =>
        have hc : c = '\n' := by
          rw [hmore] at hrest
          exact hrest.eq_newline
        rw [hx, hc] at hl
        exact absurd (List.mem_append_right x List.mem_cons_self) hl

end Lour.Lib.Python
