import Lour.Lib.Lines
import Lour.Lib.Regex
import Lour.Rag.Ingestion
/-!
# `MarkdownLoader`

The outline of a document: what the fence expression matches is taken out of the text, and
the heading expression is matched against what is left.
-/

namespace Lour.Rag

open Lour.Lib Lour.Lib.Python Lour.Lib.Regex

/-! ## The loader -/

def backtick : Char := '\x60'

/-- Three backticks. -/
def fence : List Char := [backtick, backtick, backtick]

/-- `_FENCE_RE`. -/
def fenceRe : Pattern := [.text fence, .rep (fun _ => true) 0 none true, .text fence]

/-- `_HEADING_RE`. -/
def headingRe : Pattern :=
  [.lineStart, .rep (· == '#') 1 (some 6) false, .rep isSpace 1 none false,
    .rep (· != '\n') 0 none true, .rep isSpace 0 none false, .rep (· == '#') 0 none false,
    .lineEnd]

/-- A heading of the parts of a match: the groups 1 and 2 are the first and the third. -/
def headingOf : List (List Char) → ℕ × List Char
  | marks :: _ :: title :: _ => (marks.length, stripChars title)
  | _ => (0, [])

/-- `_extract_headings`. -/
def extractHeadings (text : List Char) : List (ℕ × List Char) :=
  (finditer headingRe none (remove fenceRe text)).map headingOf

/-- What `Path(source)` says of a file. -/
structure MarkdownFile where
  path : String
  name : String
  stem : String
  text : Option String

inductive MarkdownLoadError where
  | notFound (source : String)

def MarkdownLoader.load (file : MarkdownFile) : Except MarkdownLoadError LoadedDocument :=
  match file.text with
  | none => .error (.notFound file.path)
  | some content =>
      let headings := extractHeadings content.toList
      .ok
        { content := content
          sourceUri := file.path
          docType := "markdown"
          title := some
            (match headings with
            | [] => file.stem
            | heading :: _ => String.ofList heading.2)
          metadata := [("filename", .str file.name),
            ("headings", .arr (headings.map fun heading =>
              .obj [("level", .int heading.1), ("text", .str (String.ofList heading.2))]))] }

/-! ## Taking the fences out -/

/-- Wherever the text stands, `kept` is what is left of it. -/
def Strips (s kept : List Char) : Prop :=
  ∀ before, (tokens fenceRe before s).filterMap Token.kept = kept

/-- No fence begins in the text, not even if one comes after it. -/
def Free (s : List Char) : Prop := ¬ fence <:+: s ++ [backtick, backtick]

instance (s : List Char) : Decidable (Free s) :=
  inferInstanceAs (Decidable (¬ fence <:+: s ++ [backtick, backtick]))

/-- No fence that begins in the text has another one after it. -/
def Whole (x after : List Char) : Prop :=
  ∀ a t, x ++ after = a ++ (fence ++ t) → a.length < x.length → ¬ fence <:+: t

section Fences

variable {s kept after : List Char}

theorem remove_of_strips (h : Strips s kept) : remove fenceRe s = kept := h none

theorem strips_nil : Strips [] [] := by
  intro before
  rw [tokens_nil]
  rfl

/-- Without a second fence there is no match. -/
theorem run_fence_eq_none {before : Option Char}
    (h : ∀ t, s = fence ++ t → ¬ fence <:+: t) : run fenceRe before s = none := by
  apply run_eq_none_of_not_takes
  rintro parts rest ⟨t, parts', hs, ⟨x, t', parts'', ht, -, -, -, ⟨t'', -, ht', -⟩, -⟩, -⟩
  apply h t hs
  exact ⟨x, t'', by rw [ht, ht', List.append_assoc]⟩

theorem strips_char {c : Char} (h : ∀ t, c :: s = fence ++ t → ¬ fence <:+: t)
    (hs : Strips s kept) : Strips (c :: s) (c :: kept) := by
  intro before
  rw [tokens_of_none (run_fence_eq_none h)]
  exact congrArg (c :: ·) (hs (some c))

theorem fence_not_begins {c : Char} (hc : c ≠ backtick) {t : List Char} :
    c :: s ≠ fence ++ t := by
  intro h
  exact hc (List.cons.inj h).1

theorem Free.not_begins {x u : List Char} (h : Free x) (hx : x ≠ []) {t : List Char} :
    x ++ (fence ++ u) ≠ fence ++ t := by
  intro heq
  apply h
  have hlong : fence.length ≤ (x ++ [backtick, backtick]).length := by
    have hpos := List.length_pos_iff.mpr hx
    rw [List.length_append]
    show 3 ≤ x.length + 2
    omega
  have hfence : fence <+: x ++ (fence ++ u) := ⟨t, heq.symm⟩
  have hticks : x ++ [backtick, backtick] <+: x ++ (fence ++ u) :=
    ⟨backtick :: u, by rw [List.append_assoc]; rfl⟩
  exact (List.prefix_of_prefix_length_le hfence hticks hlong).isInfix

theorem Free.tail {c : Char} {x : List Char} (h : Free (c :: x)) : Free x := by
  intro hmeets
  exact h (hmeets.trans (List.suffix_cons c _).isInfix)

theorem Whole.tail {c : Char} {x : List Char} (h : Whole (c :: x) after) : Whole x after := by
  intro a t heq hlt
  apply h (c :: a) t
  · rw [List.cons_append, heq, List.cons_append]
  · exact Nat.succ_lt_succ hlt

/-- What no match begins in is kept. -/
theorem strips_whole {x : List Char} (hx : Whole x after) (h : Strips after kept) :
    Strips (x ++ after) (x ++ kept) := by
  induction x with
  | nil => exact h
  | cons c x ih =>
      apply strips_char _ (ih hx.tail)
      intro t ht
      exact hx [] t ht (Nat.succ_pos _)

theorem whole_of_not_mem {x : List Char} (h : backtick ∉ x) : Whole x after := by
  intro a t heq hlt
  have hmem : backtick ∈ x := by
    rcases List.append_eq_append_iff.mp heq with ⟨more, ha, -⟩ | ⟨more, hx, hmore⟩
    · rw [ha, List.length_append] at hlt
      omega
    · cases more with
      | nil =>
          rw [hx, List.append_nil] at hlt
          omega
      | cons d more =>
          have hd : backtick = d := (List.cons.inj hmore).1
          rw [hx, hd]
          exact List.mem_append_right a List.mem_cons_self
  exact absurd hmem h

/-- Up to the next fence everything is kept. -/
theorem strips_free {x u : List Char} (hx : Free x) (h : Strips (fence ++ u) kept) :
    Strips (x ++ (fence ++ u)) (x ++ kept) := by
  induction x with
  | nil => exact h
  | cons c x ih =>
      apply strips_char _ (ih hx.tail)
      intro t ht
      exact absurd ht (hx.not_begins (List.cons_ne_nil c x))

/-- From one fence to the next everything goes. -/
theorem strips_span {x u : List Char} (hx : Free x) (h : Strips u kept) :
    Strips (fence ++ (x ++ (fence ++ u))) kept := by
  intro before
  have hrest : run [.text fence] (lastOf (lastOf before fence) x) (fence ++ u) =
      some ([fence], u) := by
    rw [run, if_pos (List.prefix_append fence u), List.drop_left]
    rfl
  have hlazy : run [.rep (fun _ => true) 0 none true, .text fence] (lastOf before fence)
      (x ++ (fence ++ u)) = some ([x, fence], u) := by
    apply run_lazy (r := ([fence], u)) (fun _ _ => rfl) (Nat.zero_le _) _ hrest
    · intro y v hy hv
      have hfree : Free v := by
        intro hmeets
        apply hx
        rw [← hy, List.append_assoc]
        exact hmeets.trans (List.suffix_append y _).isInfix
      rw [run, if_neg]
      rintro ⟨t, ht⟩
      exact hfree.not_begins hv ht.symm
    · exact fun m hm => absurd hm.symm (Option.some_ne_none m)
  have hrun : run fenceRe before (fence ++ (x ++ (fence ++ u))) =
      some ([fence, x, fence], u) := by
    rw [fenceRe, run, if_pos (List.prefix_append fence _), List.drop_left, hlazy]
    rfl
  rw [tokens_of_some hrun]
  · exact h _
  · rw [List.length_append, List.length_append, List.length_append]
    show u.length < 3 + (x.length + (3 + u.length))
    omega

end Fences

/-! ## Matching headings -/

/-- What `(.*?)` takes of the rest of a line that does not begin with a blank. -/
def title (c : List Char) : List Char := (c.rdropWhile (· == '#')).rdropWhile isSpace

/-- `\s*#*$`. -/
def closingRe : Pattern := [.rep isSpace 0 none false, .rep (· == '#') 0 none false, .lineEnd]

section Headings

variable {before : Option Char} {l m w c after : List Char}

theorem ne_hash_of_isSpace {d : Char} (hd : isSpace d = true) : d ≠ '#' := by
  rintro rfl
  revert hd
  decide

/-- Where a line may end there are no marks. -/
theorem nil_of_marks {x rest : List Char} (hx : ∀ d ∈ x, d = '#') (h : AtLineEnd (x ++ rest)) :
    x = [] := by
  cases x with
  | nil => rfl
  | cons d x =>
      have hd : d = '\n' := h.eq_newline
      rw [hx d List.mem_cons_self] at hd
      exact absurd hd (by decide)

/-- A line that can be a heading of the expression: marks with a blank or nothing behind. -/
def Candidate (l : List Char) : Prop :=
  (1 ≤ (l.takeWhile (· == '#')).length ∧ (l.takeWhile (· == '#')).length ≤ 6) ∧
    ∀ d, (l.dropWhile (· == '#')).head? = some d → isSpace d = true

theorem run_heading_of_ne {d : Char} {s : List Char} (hd : d ≠ '#') :
    run headingRe before (d :: s) = none := by
  apply run_eq_none_of_not_takes
  rintro parts rest ⟨-, x, t, parts', hs, hx, hone, -⟩
  cases x with
  | nil => exact absurd hone (Nat.not_succ_le_zero 0)
  | cons e x =>
      have he : e = '#' := beq_iff_eq.mp (hx e List.mem_cons_self)
      exact hd ((List.cons.inj hs).1.trans he)

theorem run_heading_within {d : Char} {s : List Char} (hd : d ≠ '\n') :
    run headingRe (some d) s = none := by
  apply run_eq_none_of_not_takes
  rintro parts rest ⟨hstart, -⟩
  rcases hstart with hnone | hnewline
  · cases hnone
  · exact hd (Option.some.inj hnewline)

/-- At the start of a line the expression matches nothing but a candidate. -/
theorem run_heading_of_not_candidate (hafter : AtLineEnd after) (h : ¬ Candidate l) :
    run headingRe before (l ++ after) = none := by
  apply run_eq_none_of_not_takes
  rintro parts rest ⟨-, x, t, parts', hs, hx, hone, hsix, ⟨y, t', parts'', ht, hy, hblank, -⟩, -⟩
  have hbounds : 1 ≤ x.length ∧ x.length ≤ 6 := ⟨hone, hsix 6 rfl⟩
  have hhash : ∀ d, t.head? = some d → isSpace d = true := by
    intro d hd
    cases y with
    | nil => exact absurd hblank (Nat.not_succ_le_zero 0)
    | cons e y =>
        rw [ht, List.cons_append, List.head?_cons, Option.some.injEq] at hd
        exact hd ▸ hy e List.mem_cons_self
  apply h
  rcases List.append_eq_append_iff.mp hs with ⟨more, hxl, hmore⟩ | ⟨more, hl, htail⟩
  · have hnil : more = [] := by
      rw [hmore] at hafter
      apply nil_of_marks _ hafter
      exact fun e he => beq_iff_eq.mp (hx e (hxl ▸ List.mem_append_right l he))
    rw [hnil, List.append_nil] at hxl
    subst hxl
    rw [Candidate, List.takeWhile_eq_self_iff.mpr hx, List.dropWhile_eq_nil_iff.mpr hx]
    exact ⟨hbounds, fun d hd => nomatch hd⟩
  · have hstop : more.takeWhile (· == '#') = [] ∧ more.dropWhile (· == '#') = more := by
      cases more with
      | nil => exact ⟨rfl, rfl⟩
      | cons e more =>
          have he : isSpace e = true := hhash e (by rw [htail]; rfl)
          have hne : ¬ (e == '#') = true := fun heq =>
            ne_hash_of_isSpace he (beq_iff_eq.mp heq)
          exact ⟨List.takeWhile_cons_of_neg hne, List.dropWhile_cons_of_neg hne⟩
    rw [Candidate, hl, List.takeWhile_append_of_pos hx, List.dropWhile_append_of_pos hx, hstop.1,
      hstop.2, List.append_nil]
    refine ⟨hbounds, ?_⟩
    intro d hd
    apply hhash
    rw [htail, List.head?_append, hd]
    rfl

/-- A title ends in no blank, and in a mark only if blanks and marks come after it. -/
theorem title_getLast {d : Char} (h : (title c).getLast? = some d) :
    isSpace d = false ∧ (d = '#' → ∃ e z, c = title c ++ e :: z ∧ isSpace e = true) := by
  have hne : title c ≠ [] := by
    intro hnil
    rw [hnil] at h
    cases h
  have hd : (title c).getLast hne = d := by
    rw [List.getLast?_eq_some_getLast hne] at h
    exact Option.some.inj h
  refine ⟨?_, ?_⟩
  · rw [← hd]
    exact Bool.eq_false_of_not_eq_true (List.rdropWhile_last_not isSpace _ hne)
  · rintro rfl
    have hmarks : title c ++ (c.rdropWhile (· == '#')).rtakeWhile isSpace =
        c.rdropWhile (· == '#') := List.rdropWhile_append_rtakeWhile
    have hwhole : c.rdropWhile (· == '#') ++ c.rtakeWhile (· == '#') = c :=
      List.rdropWhile_append_rtakeWhile
    cases hblank : (c.rdropWhile (· == '#')).rtakeWhile isSpace with
    | nil =>
        rw [hblank, List.append_nil] at hmarks
        have hne' : c.rdropWhile (· == '#') ≠ [] := hmarks ▸ hne
        have hnot := List.rdropWhile_last_not (· == '#') c hne'
        rw [hmarks, List.getLast?_eq_some_getLast hne', Option.some.injEq] at h
        rw [h] at hnot
        exact absurd rfl hnot
    | cons e blank =>
        rw [hblank] at hmarks
        refine ⟨e, blank ++ c.rtakeWhile (· == '#'), ?_, ?_⟩
        · rw [← List.cons_append, ← List.append_assoc, hmarks, hwhole]
        · exact List.mem_rtakeWhile_imp (hblank ▸ List.mem_cons_self)

/-- The rest of the line from before the end of the title on does not close it. -/
theorem run_closing_eq_none {y u z : List Char} (hline : '\n' ∉ c)
    (hc : c = title c ++ z) (hu : title c = y ++ u) (hne : u ≠ []) :
    run closingRe before (u ++ (z ++ after)) = none := by
  apply run_eq_none_of_not_takes
  rintro parts rest ⟨w, t, parts', hs, hw, -, -, ⟨m, t', parts'', ht, hm, -, -, ⟨hend, -, -⟩,
    -⟩, -⟩
  have hlast : (title c).getLast? = some (u.getLast hne) := by
    rw [hu, List.getLast?_append_of_ne_nil _ hne, List.getLast?_eq_some_getLast hne]
  obtain ⟨hspace, hmark⟩ := title_getLast hlast
  have hnotw : ∀ more, w ≠ u ++ more := by
    intro more hwu
    have hmem : isSpace (u.getLast hne) = true :=
      hw _ (hwu ▸ List.mem_append_left more (List.getLast_mem hne))
    rw [hspace] at hmem
    cases hmem
  -- the line ends no later than the marks do
  have hjoined : u ++ z ++ after = w ++ m ++ t' := by
    rw [List.append_assoc, hs, ht, List.append_assoc]
  have hinline : '\n' ∉ u ++ z := by
    intro hmem
    apply hline
    rw [hc, hu, List.append_assoc]
    exact List.mem_append_right y hmem
  obtain ⟨more, hmore, -⟩ := line_of_append hjoined hinline hend
  rw [List.append_assoc] at hmore
  rcases List.append_eq_append_iff.mp hmore with ⟨a, hua, hma⟩ | ⟨a, hwu, -⟩
  · have hmarks : ∀ d ∈ a ++ (z ++ more), d = '#' := fun d hd =>
      beq_iff_eq.mp (hm d (hma ▸ hd))
    have hmem : u.getLast hne ∈ a := by
      have hua' : u.getLast hne ∈ w ++ a := hua ▸ List.getLast_mem hne
      rcases List.mem_append.mp hua' with hw' | ha
      · have hblank := hw _ hw'
        rw [hspace] at hblank
        cases hblank
      · exact ha
    obtain ⟨e, z', hce, he⟩ := hmark (hmarks _ (List.mem_append_left _ hmem))
    have hz : z = e :: z' := (List.append_right_inj (title c)).mp (hc ▸ hce)
    have hmarked := hmarks e (List.mem_append_right a (List.mem_append_left more
      (hz ▸ List.mem_cons_self)))
    exact absurd hmarked (ne_hash_of_isSpace he)
  · exact hnotw a hwu

/-- The text has blanks and then marks. -/
def Closing (s : List Char) : Prop :=
  ∃ w m, s = w ++ m ∧ (∀ d ∈ w, isSpace d = true) ∧ ∀ d ∈ m, d = '#'

theorem exists_title (c : List Char) : ∃ z, c = title c ++ z ∧ Closing z := by
  have hmarks : title c ++ (c.rdropWhile (· == '#')).rtakeWhile isSpace =
      c.rdropWhile (· == '#') := List.rdropWhile_append_rtakeWhile
  have hwhole : c.rdropWhile (· == '#') ++ c.rtakeWhile (· == '#') = c :=
    List.rdropWhile_append_rtakeWhile
  refine ⟨(c.rdropWhile (· == '#')).rtakeWhile isSpace ++ c.rtakeWhile (· == '#'), ?_, ?_⟩
  · rw [← List.append_assoc, hmarks, hwhole]
  · refine ⟨_, _, rfl, fun d hd => List.mem_rtakeWhile_imp hd, ?_⟩
    intro d hd
    have hmark : (d == '#') = true := List.mem_rtakeWhile_imp (p := (· == '#')) hd
    exact beq_iff_eq.mp hmark

/-- The end of the expression is met where a line may end after blanks and marks. -/
theorem run_closing (before : Option Char) {z : List Char} (hz : Closing z)
    (hafter : AtLineEnd after) :
    ∃ w m rest, run closingRe before (z ++ after) = some ([w, m], rest) ∧
      z ++ after = w ++ m ++ rest ∧ Closing (w ++ m) ∧ AtLineEnd rest := by
  obtain ⟨w, m, rfl, hw, hm⟩ := hz
  have htakes : Takes closingRe before (w ++ m ++ after) [w, m] after := by
    refine ⟨w, m ++ after, [m], List.append_assoc .., hw, Nat.zero_le _, ?_, ?_, rfl⟩
    · exact fun _ h => nomatch h
    · refine ⟨m, after, [], rfl, fun d hd => beq_iff_eq.mpr (hm d hd), Nat.zero_le _, ?_,
        ⟨hafter, rfl, rfl⟩, rfl⟩
      exact fun _ h => nomatch h
  obtain ⟨⟨parts, rest⟩, hrun⟩ := Option.isSome_iff_exists.mp (run_isSome_of_takes htakes)
  obtain ⟨w', t, parts', hs, hw', -, -, ⟨m', t', parts'', ht, hm', -, -, ⟨hend, hnil, hrest⟩,
    hparts'⟩, hparts⟩ := takes_of_run hrun
  refine ⟨w', m', rest, ?_, ?_, ⟨w', m', rfl, hw', fun d hd => beq_iff_eq.mp (hm' d hd)⟩, ?_⟩
  · rw [hrun, hparts, hparts', hnil]
  · rw [hs, ht, hrest, List.append_assoc]
  · exact hrest ▸ hend

/-- A repetition of marks takes all the marks of a heading. -/
theorem run_marks {ps : Pattern} {s : List Char} {r : List (List Char) × List Char}
    (hm : ∀ d ∈ m, d = '#') (hone : 1 ≤ m.length) (hsix : m.length ≤ 6)
    (hs : s.head? ≠ some '#') (hr : run ps (lastOf before m) s = some r) :
    run (.rep (· == '#') 1 (some 6) false :: ps) before (m ++ s) = some (m :: r.1, r.2) := by
  apply run_greedy (fun d hd => beq_iff_eq.mpr (hm d hd)) hone _ hr
  · intro y u hy hne hmarks
    cases y with
    | nil => exact absurd rfl hne
    | cons d y =>
        rw [← hy, List.cons_append, List.head?_cons] at hs
        exact absurd (congrArg some (beq_iff_eq.mp (hmarks d List.mem_cons_self))) hs
  · rintro _ ⟨rfl⟩
    exact hsix

theorem run_blanks {ps : Pattern} {s : List Char} {r : List (List Char) × List Char}
    (hw : ∀ d ∈ w, isSpace d = true) (hne : w ≠ [])
    (hs : ∀ d, s.head? = some d → isSpace d = false) (hr : run ps (lastOf before w) s = some r) :
    run (.rep isSpace 1 none false :: ps) before (w ++ s) = some (w :: r.1, r.2) := by
  apply run_greedy hw (List.length_pos_iff.mpr hne) _ hr
  · intro y u hy hy0 hblank
    cases y with
    | nil => exact absurd rfl hy0
    | cons d y =>
        have hd := hs d (by rw [← hy]; rfl)
        rw [hblank d List.mem_cons_self] at hd
        cases hd
  · exact fun _ h => nomatch h

/-- A heading with a title: what is matched behind it is blanks and marks up to the end of
a line, not of its own line alone. -/
theorem run_heading_of_title (hstart : before = none ∨ before = some '\n')
    (hm : ∀ d ∈ m, d = '#') (hone : 1 ≤ m.length) (hsix : m.length ≤ 6)
    (hw : ∀ d ∈ w, isSpace d = true) (hw0 : w ≠ [])
    (hc : ∀ d, (c ++ after).head? = some d → isSpace d = false) (hline : '\n' ∉ c)
    (hafter : AtLineEnd after) :
    ∃ w' m' rest, run headingRe before (m ++ (w ++ (c ++ after))) =
        some ([m, w, title c, w', m'], rest) ∧
      c ++ after = title c ++ (w' ++ m' ++ rest) ∧ Closing (w' ++ m') ∧ AtLineEnd rest := by
  obtain ⟨z, hz, hclosing⟩ := exists_title c
  have hlazy : ∀ b, ∃ w' m' rest, run (.rep (· != '\n') 0 none true :: closingRe) b (c ++ after) =
        some ([title c, w', m'], rest) ∧
      z ++ after = w' ++ m' ++ rest ∧ Closing (w' ++ m') ∧ AtLineEnd rest := by
    intro b
    obtain ⟨w', m', rest, hrun, heq, hclosed, hend⟩ :=
      run_closing (lastOf b (title c)) hclosing hafter
    refine ⟨w', m', rest, ?_, heq, hclosed, hend⟩
    have hsplit : c ++ after = title c ++ (z ++ after) := by
      rw [← List.append_assoc, ← hz]
    rw [hsplit]
    apply run_lazy (r := ([w', m'], rest)) _ (Nat.zero_le _) _ hrun
    · intro y u hy hu
      exact run_closing_eq_none hline hz hy.symm hu
    · intro d hd
      rw [bne_iff_ne]
      rintro rfl
      exact hline (hz ▸ List.mem_append_left z hd)
    · exact fun _ h => nomatch h
  obtain ⟨w', m', rest, hrun, heq, hclosed, hend⟩ := hlazy (lastOf (lastOf before m) w)
  refine ⟨w', m', rest, ?_, ?_, hclosed, hend⟩
  · rw [headingRe, run, if_pos hstart]
    apply run_marks (r := ([w, title c, w', m'], rest)) hm hone hsix
    · cases w with
      | nil => exact absurd rfl hw0
      | cons d w =>
          intro hhash
          exact ne_hash_of_isSpace (hw d List.mem_cons_self) (Option.some.inj hhash)
    · exact run_blanks (r := ([title c, w', m'], rest)) hw hw0 hc hrun
  · rw [← heq, ← List.append_assoc, ← hz]

/-- Marks with nothing but blanks behind them match to the end of the text. -/
theorem run_heading_of_blank (hstart : before = none ∨ before = some '\n')
    (hm : ∀ d ∈ m, d = '#') (hone : 1 ≤ m.length) (hsix : m.length ≤ 6)
    (hw : ∀ d ∈ w, isSpace d = true) (hw0 : w ≠ []) :
    run headingRe before (m ++ w) = some ([m, w, [], [], []], []) := by
  have hend : ∀ b, run (.rep (· != '\n') 0 none true :: closingRe) b [] = some ([[], [], []], []) :=
    fun b => rfl
  rw [headingRe, run, if_pos hstart]
  apply run_marks (r := ([w, [], [], []], [])) hm hone hsix
  · cases w with
    | nil => exact absurd rfl hw0
    | cons d w =>
        intro hhash
        exact ne_hash_of_isSpace (hw d List.mem_cons_self) (Option.some.inj hhash)
  · have hblanks := run_blanks (s := []) hw hw0
      (fun d hd => absurd hd.symm (Option.some_ne_none d)) (hend (lastOf (lastOf before m) w))
    rwa [List.append_nil] at hblanks

end Headings

end Lour.Rag
