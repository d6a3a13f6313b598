import Lour.Rag.Coverage
/-!
# What semantic grouping keeps of a text

The groups are runs of neighbouring sentences, cut where the distance is above the
threshold.
-/

namespace Lour.Rag

open Lour.Lib.Python

/-! ## The sentences -/

theorem sentencePieces_nonSpace (text : List Char) : ∀ scan current,
    nonSpace (sentencePieces scan current text).flatten = nonSpace current ++ nonSpace text := by
  induction text with
  | nil =>
      intro scan current
      rw [sentencePieces, List.flatten_singleton, nonSpace_nil, List.append_nil]
  | cons c cs ih =>
      intro scan current
      have hpush : nonSpace (sentencePieces .piece (current ++ [c]) cs).flatten =
          nonSpace current ++ nonSpace (c :: cs) := by
        rw [ih, nonSpace_append, List.append_assoc, ← nonSpace_append, List.singleton_append]
      have hdrop : isSpace c = true → nonSpace (c :: cs) = nonSpace cs := by
        intro hspace
        simp [nonSpace, hspace]
      rcases sentencePieces_cons scan current c cs with heq | ⟨hspace, heq⟩ | ⟨hspace, gap, heq⟩
      · rw [heq]
        exact hpush
      · rw [heq, ih, hdrop hspace]
      · rw [heq, List.flatten_cons, nonSpace_append, ih, hdrop hspace, nonSpace_nil,
          List.nil_append]

theorem flatten_nonSpace_congr {pieces : List (List Char)} {f : List Char → List Char}
    (h : ∀ piece, nonSpace (f piece) = nonSpace piece) :
    nonSpace (pieces.map f).flatten = nonSpace pieces.flatten := by
  induction pieces with
  | nil => rfl
  | cons piece pieces ih =>
      rw [List.map_cons, List.flatten_cons, List.flatten_cons, nonSpace_append, nonSpace_append,
        h, ih]

theorem flatten_nonSpace_filter (pieces : List (List Char)) :
    nonSpace (pieces.filter fun s => !blankChars s).flatten = nonSpace pieces.flatten := by
  induction pieces with
  | nil => rfl
  | cons piece pieces ih =>
      rw [List.filter_cons, List.flatten_cons, nonSpace_append]
      split
      next => rw [List.flatten_cons, nonSpace_append, ih]
      next hblank =>
          have hblank : blankChars piece = true := by simpa using hblank
          rw [ih, nonSpace_blank hblank, List.nil_append]

/-- The separators are whitespace: a sentence split drops nothing visible. -/
theorem splitSentences_nonSpace (text : List Char) :
    nonSpace (splitSentences text).flatten = nonSpace text := by
  calc nonSpace (splitSentences text).flatten
      = nonSpace ((sentencePieces .piece [] text).filter fun s => !blankChars s).flatten :=
        flatten_nonSpace_congr nonSpace_stripChars
    _ = nonSpace (sentencePieces .piece [] text).flatten := flatten_nonSpace_filter _
    _ = nonSpace text := by rw [sentencePieces_nonSpace, nonSpace_nil, List.nil_append]

/-! ## Runs of sentences -/

/-- `" ".join(sentences)`. -/
def joinSentences (sentences : List (List Char)) : List Char := [' '].intercalate sentences

theorem joinSentences_nonSpace (sentences : List (List Char)) :
    nonSpace (joinSentences sentences) = nonSpace sentences.flatten := by
  induction sentences with
  | nil => rfl
  | cons sentence sentences ih =>
      by_cases hnil : sentences = []
      · subst hnil
        rw [joinSentences, List.intercalate_singleton, List.flatten_singleton]
      · rw [joinSentences, List.intercalate_cons_of_ne_nil hnil, List.flatten_cons,
          nonSpace_append, nonSpace_append, nonSpace_append, ← ih]
        show nonSpace sentence ++ [] ++ nonSpace (joinSentences sentences) = _
        rw [List.append_nil]

theorem joinSentences_append {front back : List (List Char)} (hfront : front ≠ [])
    (hback : back ≠ []) :
    joinSentences (front ++ back) = joinSentences front ++ ' ' :: joinSentences back := by
  induction front with
  | nil => exact absurd rfl hfront
  | cons sentence front ih =>
      have hrest : front ++ back ≠ [] := List.append_ne_nil_of_right_ne_nil front hback
      rw [List.cons_append, joinSentences, List.intercalate_cons_of_ne_nil hrest]
      by_cases hnil : front = []
      · subst hnil
        show sentence ++ [' '] ++ joinSentences back = joinSentences [sentence] ++ _
        rw [joinSentences, joinSentences, List.intercalate_singleton, List.append_assoc,
          List.singleton_append]
      · have hih : [' '].intercalate (front ++ back) = _ := ih hnil
        rw [hih, joinSentences, joinSentences, joinSentences,
          List.intercalate_cons_of_ne_nil hnil]
        simp only [List.append_assoc]

/-- Joining run by run is joining all. -/
theorem joinSentences_runs {runs : List (List (List Char))} (h : ∀ run ∈ runs, run ≠ []) :
    joinSentences (runs.map joinSentences) = joinSentences runs.flatten := by
  induction runs with
  | nil => rfl
  | cons run runs ih =>
      obtain ⟨hrun, hruns⟩ := List.forall_mem_cons.mp h
      by_cases hnil : runs = []
      · subst hnil
        rw [List.map_singleton, List.flatten_singleton, joinSentences, List.intercalate_singleton]
      · have hmap : runs.map joinSentences ≠ [] := by simpa using hnil
        have hflatten : runs.flatten ≠ [] := by
          obtain ⟨other, hother⟩ := List.exists_mem_of_ne_nil runs hnil
          obtain ⟨sentence, hsentence⟩ := List.exists_mem_of_ne_nil other (hruns other hother)
          exact List.ne_nil_of_mem (List.mem_flatten_of_mem hother hsentence)
        calc joinSentences ((run :: runs).map joinSentences)
            = joinSentences run ++ ' ' :: joinSentences (runs.map joinSentences) := by
              rw [joinSentences, List.map_cons, List.intercalate_cons_of_ne_nil hmap,
                List.append_assoc, List.singleton_append]
              rfl
          _ = joinSentences (run :: runs).flatten := by
              rw [ih hruns, List.flatten_cons, joinSentences_append hrun hflatten]

theorem joinSentences_ne_nil {run : List (List Char)} (hrun : run ≠ [])
    (h : ∀ sentence ∈ run, sentence ≠ []) : joinSentences run ≠ [] := by
  cases run with
  | nil => exact absurd rfl hrun
  | cons sentence run =>
      have hsentence : sentence ≠ [] := h sentence List.mem_cons_self
      by_cases hnil : run = []
      · subst hnil
        rwa [joinSentences, List.intercalate_singleton]
      · rw [joinSentences, List.intercalate_cons_of_ne_nil hnil, List.append_assoc]
        exact List.append_ne_nil_of_left_ne_nil hsentence _

/-! ## Groups as a partition -/

/-- The groups are the runs of a partition of the sentences, one more than cuts. -/
def Grouped (sentences : List (List Char)) (cuts : ℕ) (groups : List (List Char)) : Prop :=
  ∃ runs : List (List (List Char)), groups = runs.map joinSentences ∧ runs.flatten = sentences ∧
    (∀ run ∈ runs, run ≠ []) ∧ runs.length = cuts + 1

namespace Grouped

variable {sentences groups : List (List Char)} {cuts : ℕ}

theorem one {run : List (List Char)} (hrun : run ≠ []) : Grouped run 0 [joinSentences run] := by
  refine ⟨[run], rfl, List.flatten_singleton, ?_, rfl⟩
  exact List.forall_mem_singleton.mpr hrun

theorem cut {run : List (List Char)} (hrun : run ≠ []) (h : Grouped sentences cuts groups) :
    Grouped (run ++ sentences) (cuts + 1) (joinSentences run :: groups) := by
  obtain ⟨runs, hgroups, hflatten, hne, hlength⟩ := h
  refine ⟨run :: runs, ?_, ?_, List.forall_mem_cons.mpr ⟨hrun, hne⟩, ?_⟩
  · rw [hgroups, List.map_cons]
  · rw [List.flatten_cons, hflatten]
  · rw [List.length_cons, hlength]

theorem join_eq (h : Grouped sentences cuts groups) :
    joinSentences groups = joinSentences sentences := by
  obtain ⟨runs, hgroups, hflatten, hne, -⟩ := h
  rw [hgroups, joinSentences_runs hne, hflatten]

theorem length_eq (h : Grouped sentences cuts groups) : groups.length = cuts + 1 := by
  obtain ⟨runs, hgroups, -, -, hlength⟩ := h
  rw [hgroups, List.length_map, hlength]

theorem group_ne_nil (h : Grouped sentences cuts groups)
    (hsentences : ∀ sentence ∈ sentences, sentence ≠ []) : ∀ group ∈ groups, group ≠ [] := by
  obtain ⟨runs, hgroups, hflatten, hne, -⟩ := h
  intro group hgroup
  rw [hgroups] at hgroup
  obtain ⟨run, hrun, heq⟩ := List.mem_map.mp hgroup
  rw [← heq]
  apply joinSentences_ne_nil (hne run hrun)
  intro sentence hsentence
  apply hsentences sentence
  rw [← hflatten]
  exact List.mem_flatten_of_mem hrun hsentence

theorem nonSpace_eq (h : Grouped sentences cuts groups) :
    nonSpace groups.flatten = nonSpace sentences.flatten := by
  calc nonSpace groups.flatten
      = nonSpace (joinSentences groups) := (joinSentences_nonSpace groups).symm
    _ = nonSpace (joinSentences sentences) := by rw [h.join_eq]
    _ = nonSpace sentences.flatten := joinSentences_nonSpace sentences

end Grouped

/-! ## The loop over the distances -/

section Loop

variable {R : Type} [LT R] [DecidableLT R]

/-- The distances at which a group ends. -/
def breakpoints (threshold : R) (distances : List R) : List R :=
  distances.filter fun dist => threshold < dist

theorem groupFrom_grouped (threshold : R) (sentences : List (List Char)) :
    ∀ (current : List (List Char)) (distances : List R), current ≠ [] →
      distances.length = sentences.length →
      ∃ groups, SemanticChunker.groupFrom threshold current sentences distances = some groups ∧
        Grouped (current ++ sentences) (breakpoints threshold distances).length groups := by
  induction sentences with
  | nil =>
      intro current distances hcurrent hlength
      have hdistances : distances = [] := List.length_eq_zero_iff.mp hlength
      subst hdistances
      rw [List.append_nil]
      exact ⟨_, rfl, .one hcurrent⟩
  | cons sentence sentences ih =>
      intro current distances hcurrent hlength
      cases distances with
      | nil => exact absurd hlength (Nat.succ_ne_zero _).symm
      | cons dist distances =>
          have hrest : distances.length = sentences.length := Nat.succ.inj hlength
          rw [SemanticChunker.groupFrom, breakpoints, List.filter_cons]
          by_cases hcut : threshold < dist
          · obtain ⟨groups, hgroups, hgrouped⟩ :=
              ih [sentence] distances (List.cons_ne_nil _ _) hrest
            rw [if_pos hcut, if_pos (decide_eq_true hcut), hgroups]
            exact ⟨_, rfl, hgrouped.cut hcurrent⟩
          · have hmore : current ++ [sentence] ≠ [] := List.append_ne_nil_of_left_ne_nil hcurrent _
            obtain ⟨groups, hgroups, hgrouped⟩ := ih (current ++ [sentence]) distances hmore hrest
            rw [if_neg hcut, if_neg (by simpa using hcut)]
            rw [List.append_assoc, List.singleton_append] at hgrouped
            exact ⟨groups, hgroups, hgrouped⟩

theorem groupByBreakpoints_grouped (threshold : R) {sentences : List (List Char)}
    (hsentences : sentences ≠ []) {distances : List R}
    (hlength : distances.length = sentences.length - 1) :
    ∃ groups, SemanticChunker.groupByBreakpoints sentences distances threshold = some groups ∧
      Grouped sentences (breakpoints threshold distances).length groups := by
  cases sentences with
  | nil => exact absurd rfl hsentences
  | cons sentence sentences =>
      exact groupFrom_grouped threshold sentences [sentence] distances (List.cons_ne_nil _ _)
        hlength

end Loop

/-- Nothing is cut again where no group is too long. -/
theorem enforceMaxSize_of_short {V R : Type} {self : SemanticChunker V R}
    {groups : List (List Char)} (h : ∀ group ∈ groups, group.length ≤ self.maxChunkChars) :
    self.enforceMaxSize groups = groups := by
  induction groups with
  | nil => rfl
  | cons group groups ih =>
      obtain ⟨hgroup, hgroups⟩ := List.forall_mem_cons.mp h
      show (if group.length ≤ self.maxChunkChars then [group] else _) ++
        self.enforceMaxSize groups = group :: groups
      rw [if_pos hgroup, ih hgroups, List.singleton_append]

section Split

variable {V R : Type} [LT R] [DecidableLT R] {self : SemanticChunker V R}

/-- The text is cut by meaning, into these groups: there is an embedder, the text has
sentences enough, and the embedder gives a vector for each. -/
def ByMeaning (self : SemanticChunker V R) (text : List Char) (groups : List (List Char)) : Prop :=
  ∃ embed vectors, self.embedder = some embed ∧
    self.minSentences ≤ (splitSentences (stripChars text)).length ∧
    embed (splitSentences (stripChars text)) = some vectors ∧
    vectors.length = (splitSentences (stripChars text)).length ∧
    self.consecutiveDistances vectors ≠ [] ∧
    SemanticChunker.groupByBreakpoints (splitSentences (stripChars text))
      (self.consecutiveDistances vectors)
      (self.percentile (self.consecutiveDistances vectors)) = some groups

theorem split_byMeaning {text : List Char} {groups : List (List Char)}
    (h : ByMeaning self text groups) : self.split text = some (self.enforceMaxSize groups) := by
  obtain ⟨embed, vectors, hembedder, hmany, hembed, -, hdistances, hgroups⟩ := h
  have htext : stripChars text ≠ [] := by
    intro hnil
    rw [hnil] at hgroups
    cases hgroups
  have hempty : (self.consecutiveDistances vectors).isEmpty = false := by
    rw [List.isEmpty_eq_false_iff]
    exact hdistances
  simp only [SemanticChunker.split, if_neg htext, hembedder, if_neg (Nat.not_lt.mpr hmany), hembed,
    hempty, hgroups]
  rfl

theorem groupByBreakpoints_sentences {distance : V → V → R} {text : List Char} {vectors : List V}
    (hvectors : vectors.length = (splitSentences text).length) (threshold : R)
    {groups : List (List Char)}
    (h : SemanticChunker.groupByBreakpoints (splitSentences text)
      (consecutiveDistances distance vectors) threshold = some groups) :
    Grouped (splitSentences text)
      (breakpoints threshold (consecutiveDistances distance vectors)).length groups := by
  have hne : splitSentences text ≠ [] := by
    intro hnil
    rw [hnil] at h
    cases h
  have hlength : (consecutiveDistances distance vectors).length =
      (splitSentences text).length - 1 := by
    rw [length_consecutiveDistances, hvectors]
  obtain ⟨others, hothers, hgrouped⟩ := groupByBreakpoints_grouped threshold hne hlength
  rw [h] at hothers
  rwa [Option.some.inj hothers]

/-- Every sentence gets into exactly one group, in order, whatever the vectors and
the threshold; and where no group is too long the chunks are the groups. -/
theorem grouping_keeps_sentences (distance : V → V → R)
    (hdistances : self.consecutiveDistances = consecutiveDistances distance) (text : List Char) :
    (∀ (vectors : List V) (threshold : R), vectors.length = (splitSentences text).length →
      (blankChars text = false → ∃ groups, SemanticChunker.groupByBreakpoints
        (splitSentences text) (self.consecutiveDistances vectors) threshold = some groups) ∧
      ∀ groups, SemanticChunker.groupByBreakpoints
          (splitSentences text) (self.consecutiveDistances vectors) threshold = some groups →
        (∀ group ∈ groups, group ≠ []) ∧
        Grouped (splitSentences text)
          (breakpoints threshold (self.consecutiveDistances vectors)).length groups ∧
        joinSentences groups = joinSentences (splitSentences text) ∧
        groups.length = (breakpoints threshold (self.consecutiveDistances vectors)).length + 1 ∧
        nonSpace groups.flatten = nonSpace text) ∧
    (∀ groups, ByMeaning self text groups →
      (∀ group ∈ groups, group.length ≤ self.maxChunkChars) →
      ∃ chunks, self.split text = some chunks ∧ nonSpace chunks.flatten = nonSpace text) := by
  rw [hdistances]
  constructor
  · intro vectors threshold hvectors
    constructor
    · intro hblank
      have hne : splitSentences text ≠ [] := splitSentences_ne_nil (blankChars_eq_false.mp hblank)
      have hlength : (consecutiveDistances distance vectors).length =
          (splitSentences text).length - 1 := by
        rw [length_consecutiveDistances, hvectors]
      obtain ⟨groups, hgroups, -⟩ := groupByBreakpoints_grouped threshold hne hlength
      exact ⟨groups, hgroups⟩
    · intro groups hgroups
      have hgrouped := groupByBreakpoints_sentences hvectors threshold hgroups
      refine ⟨?_, hgrouped, hgrouped.join_eq, hgrouped.length_eq, ?_⟩
      · exact hgrouped.group_ne_nil fun sentence hsentence =>
          (mem_splitSentences hsentence).ne_nil
      · rw [hgrouped.nonSpace_eq, splitSentences_nonSpace]
  · intro groups hgroups hshort
    obtain ⟨embed, vectors, -, -, -, hvectors, -, hgroup⟩ := id hgroups
    rw [hdistances] at hgroup
    have hgrouped := groupByBreakpoints_sentences hvectors _ hgroup
    refine ⟨groups, ?_, ?_⟩
    · rw [split_byMeaning hgroups, enforceMaxSize_of_short hshort]
    · calc nonSpace groups.flatten
          = nonSpace (splitSentences (stripChars text)).flatten := hgrouped.nonSpace_eq
        _ = nonSpace (stripChars text) := splitSentences_nonSpace _
        _ = nonSpace text := nonSpace_stripChars text

end Split

/-- Cuts between two sentences of unlike length. -/
def lengthGrouping : SemanticChunker ℕ ℕ where
  embedder := some fun sentences => some (sentences.map List.length)
  consecutiveDistances := consecutiveDistances fun a b => a - b + (b - a)
  percentile := fun _ => 1
  minSentences := 2
  maxChunkChars_pos := maxChunkChars_default_pos

theorem grouping_keeps_sentences_lengths :
    let text : List Char := ['a', '.', ' ', 'b', '.', '\n', '\n', 'c', 'd', 'e', 'f', '.']
    let groups : List (List Char) := [['a', '.', ' ', 'b', '.'], ['c', 'd', 'e', 'f', '.']]
    SemanticChunker.groupByBreakpoints (splitSentences text)
        (lengthGrouping.consecutiveDistances [2, 2, 5]) 1 = some groups ∧
      joinSentences groups = joinSentences (splitSentences text) ∧
      ∃ chunks, lengthGrouping.split text = some chunks ∧
        nonSpace chunks.flatten = nonSpace text := by
  intro text groups
  have hgroups : SemanticChunker.groupByBreakpoints (splitSentences text)
      (lengthGrouping.consecutiveDistances [2, 2, 5]) 1 = some groups := by decide
  have hdistances : lengthGrouping.consecutiveDistances =
      consecutiveDistances (fun a b => a - b + (b - a)) := rfl
  have hkeeps := grouping_keeps_sentences _ hdistances text
  have hjoined := (hkeeps.1 [2, 2, 5] 1 (by decide)).2 groups hgroups
  refine ⟨hgroups, hjoined.2.2.1, hkeeps.2 groups ?_ (by decide)⟩
  exact ⟨_, [2, 2, 5], rfl, by decide, by decide, by decide, by decide, hgroups⟩

end Lour.Rag
