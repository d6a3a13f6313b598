import Lour.Rag.Splitting
/-!
# The size of a chunk

Every chunk has a visible character and keeps to the limit: the separators end in
single characters, the merging loop checks each text it puts together, and a
semantic group that is too long goes through the fallback.
-/

namespace Lour.Rag

open Lour.Lib.Python

/-- A chunk as it may be stored: not blank, and within the limit. -/
def Fits (limit : ℕ) (chunk : List Char) : Prop := Visible chunk ∧ chunk.length ≤ limit

namespace RecursiveCharacterChunker

variable {self : RecursiveCharacterChunker}

theorem splitRecursive_fits {separators : List (List Char)} (hlast : [] ∈ separators)
    (text : List Char) :
    ∀ piece ∈ self.splitRecursive separators text, Fits self.chunkSize piece := by
  intro piece hpiece
  obtain ⟨hvisible, hlength, -⟩ := mem_splitRecursive hlast hpiece
  exact ⟨hvisible, hlength⟩

theorem mem_closed {chunks : List (List Char)} {current chunk : List Char}
    (h : chunk ∈ closed chunks current) : chunk ∈ chunks ∨ current ≠ [] ∧ chunk = current := by
  rw [closed] at h
  split at h
  next => exact .inl h
  next hne =>
      rcases List.mem_append.mp h with hold | hnew
      · exact .inl hold
      · exact .inr ⟨hne, List.mem_singleton.mp hnew⟩

/-- The chunks so far fit, and so does the one being put together once it has
begun. -/
def Merging (limit : ℕ) (acc : List (List Char) × List Char) : Prop :=
  (∀ chunk ∈ acc.1, Fits limit chunk) ∧ (acc.2 ≠ [] → Fits limit acc.2)

theorem Merging.closed {limit : ℕ} {chunks : List (List Char)} {current : List Char}
    (h : Merging limit (chunks, current)) : ∀ chunk ∈ closed chunks current, Fits limit chunk := by
  intro chunk hchunk
  rcases mem_closed hchunk with hold | ⟨hne, rfl⟩
  · exact h.1 chunk hold
  · exact h.2 hne

theorem overlapped_fits {chunks : List (List Char)} {piece : List Char}
    (h : Fits self.chunkSize piece) : Fits self.chunkSize (self.overlapped chunks piece) := by
  refine ⟨overlapped_visible h.1, ?_⟩
  unfold overlapped
  split
  next =>
      dsimp only
      split
      next => exact h.2
      next hlong => exact Nat.le_of_not_lt hlong
  next => exact h.2

theorem mergePiece_merging {acc : List (List Char) × List Char} {piece : List Char}
    (hacc : Merging self.chunkSize acc) (hpiece : Fits self.chunkSize piece) :
    Merging self.chunkSize (self.mergePiece acc piece) := by
  unfold mergePiece
  dsimp only
  split
  next hlength => exact ⟨hacc.1, fun _ => ⟨candidate_visible (.inr hpiece.1), hlength⟩⟩
  next => exact ⟨hacc.closed, fun _ => overlapped_fits hpiece⟩

theorem mergeWithOverlap_fits {pieces : List (List Char)}
    (h : ∀ piece ∈ pieces, Fits self.chunkSize piece) :
    ∀ chunk ∈ self.mergeWithOverlap pieces, Fits self.chunkSize chunk := by
  have hempty : Merging self.chunkSize ([], []) :=
    ⟨fun _ hchunk => absurd hchunk List.not_mem_nil, fun hne => absurd rfl hne⟩
  have hfold : Merging self.chunkSize (pieces.foldl self.mergePiece ([], [])) := by
    apply List.foldlRecOn pieces self.mergePiece hempty
    intro acc hacc piece hpiece
    exact mergePiece_merging hacc (h piece hpiece)
  exact hfold.closed

theorem split_fits (self : RecursiveCharacterChunker) (hlast : [] ∈ self.separators)
    (text : List Char) :
    ∀ chunk ∈ self.split text, Fits self.chunkSize chunk := by
  intro chunk hchunk
  exact mergeWithOverlap_fits (splitRecursive_fits hlast _) chunk (mem_split hchunk)

end RecursiveCharacterChunker

theorem nil_mem_defaultSeparators : [] ∈ defaultSeparators := by simp [defaultSeparators]

/-- `_consecutive_distances`, with numpy's distance of two rows: one for each sentence and the
next. -/
def consecutiveDistances {V R : Type} (distance : V → V → R) (vectors : List V) : List R :=
  if vectors.length < 2 then [] else List.zipWith distance vectors.dropLast vectors.tail

theorem length_consecutiveDistances {V R : Type} (distance : V → V → R) (vectors : List V) :
    (consecutiveDistances distance vectors).length = vectors.length - 1 := by
  unfold consecutiveDistances
  split
  next hshort =>
      rw [List.length_nil]
      omega
  next => rw [List.length_zipWith, List.length_dropLast, List.length_tail, Nat.min_self]

namespace SemanticChunker

variable {V R : Type} [LT R] [DecidableLT R] {self : SemanticChunker V R}

/-- With a sentence for each distance the loop ends, and a group is never empty:
its sentences are visible. -/
theorem groupFrom_groups (threshold : R) (sentences : List (List Char)) :
    ∀ (current : List (List Char)) (distances : List R),
      (∃ sentence ∈ current, Visible sentence) → (∀ sentence ∈ sentences, Visible sentence) →
      distances.length ≤ sentences.length →
      ∃ groups, groupFrom threshold current sentences distances = some groups ∧
        ∀ group ∈ groups, Visible group := by
  induction sentences with
  | nil =>
      intro current distances hcurrent _ hlength
      have hnil : distances = [] := List.eq_nil_of_length_eq_zero (Nat.le_zero.mp hlength)
      subst hnil
      refine ⟨_, rfl, fun group hgroup => ?_⟩
      rw [List.mem_singleton.mp hgroup]
      exact join_visible hcurrent
  | cons sentence sentences ih =>
      intro current distances hcurrent hsentences hlength
      have hfirst : Visible sentence := hsentences sentence List.mem_cons_self
      have hothers : ∀ other ∈ sentences, Visible other :=
        fun other hother => hsentences other (List.mem_cons_of_mem _ hother)
      cases distances with
      | nil =>
          refine ⟨_, rfl, fun group hgroup => ?_⟩
          rw [List.mem_singleton.mp hgroup]
          exact join_visible hcurrent
      | cons dist distances =>
          have hshorter : distances.length ≤ sentences.length := Nat.le_of_succ_le_succ hlength
          rw [groupFrom]
          split
          next =>
              obtain ⟨groups, hgroups, hvisible⟩ := ih [sentence] distances
                ⟨sentence, List.mem_singleton_self _, hfirst⟩ hothers hshorter
              rw [hgroups]
              refine ⟨_, rfl, fun group hgroup => ?_⟩
              rcases List.mem_cons.mp hgroup with heq | hrest
              · rw [heq]
                exact join_visible hcurrent
              · exact hvisible group hrest
          next =>
              obtain ⟨found, hfound, hvisible⟩ := hcurrent
              exact ih (current ++ [sentence]) distances
                ⟨found, List.mem_append_left _ hfound, hvisible⟩ hothers hshorter

omit [LT R] [DecidableLT R] in
theorem fallback_fits (hfallback : self.fallback = none) (text : List Char) :
    ∀ chunk ∈ self.fallbackChunker.split text, Fits self.maxChunkChars chunk := by
  unfold fallbackChunker
  rw [hfallback]
  exact (defaultFallback self.maxChunkChars self.maxChunkChars_pos).split_fits
    nil_mem_defaultSeparators text

omit [LT R] [DecidableLT R] in
theorem enforceMaxSize_fits (hfallback : self.fallback = none) {groups : List (List Char)}
    (h : ∀ group ∈ groups, Visible group) :
    ∀ chunk ∈ self.enforceMaxSize groups, Fits self.maxChunkChars chunk := by
  intro chunk hchunk
  obtain ⟨group, hgroup, hinner⟩ := List.mem_flatMap.mp hchunk
  split at hinner
  next hlength =>
      rw [List.mem_singleton.mp hinner]
      exact ⟨h group hgroup, hlength⟩
  next => exact fallback_fits hfallback group chunk hinner

/-- One vector for each sentence, or an exception. -/
def OnePerSentence (self : SemanticChunker V R) : Prop :=
  ∀ embed ∈ self.embedder, ∀ sentences vectors,
    embed sentences = some vectors → vectors.length = sentences.length

theorem split_fits (hfallback : self.fallback = none) {distance : V → V → R}
    (hdistances : self.consecutiveDistances = Rag.consecutiveDistances distance)
    (hembedder : self.OnePerSentence) (text : List Char) :
    ∃ chunks, self.split text = some chunks ∧ ∀ chunk ∈ chunks, Fits self.maxChunkChars chunk := by
  have hgiveUp : ∃ chunks, some (self.fallbackChunker.split (stripChars text)) = some chunks ∧
      ∀ chunk ∈ chunks, Fits self.maxChunkChars chunk :=
    ⟨_, rfl, fallback_fits hfallback _⟩
  unfold split
  dsimp only
  split
  next => exact ⟨[], rfl, fun _ hchunk => absurd hchunk List.not_mem_nil⟩
  next hne =>
  have hvisible : Visible (stripChars text) := (endsVisible_stripChars hne).visible
  split
  next => exact hgiveUp
  next embed hembed =>
  split
  next => exact hgiveUp
  next =>
  split
  next => exact hgiveUp
  next vectors hvectors =>
  split
  next => exact hgiveUp
  next =>
      have hcount := hembedder embed hembed _ _ hvectors
      have hlength : (self.consecutiveDistances vectors).length
          = (splitSentences (stripChars text)).length - 1 := by
        rw [hdistances, length_consecutiveDistances, hcount]
      have hsentences : ∀ sentence ∈ splitSentences (stripChars text), Visible sentence :=
        fun _ => mem_splitSentences
      unfold groupByBreakpoints
      split
      next hnil => exact absurd hnil (splitSentences_ne_nil hvisible)
      next first others heq =>
          rw [heq, List.length_cons, Nat.add_sub_cancel] at hlength
          rw [heq] at hsentences
          obtain ⟨groups, hgroups, hgroupsVisible⟩ :=
            groupFrom_groups (self.percentile (self.consecutiveDistances vectors)) others [first] _
              ⟨first, List.mem_singleton_self _, hsentences first List.mem_cons_self⟩
              (fun other hother => hsentences other (List.mem_cons_of_mem _ hother))
              (le_of_eq hlength)
          rw [hgroups]
          exact ⟨_, rfl, enforceMaxSize_fits hfallback hgroupsVisible⟩

end SemanticChunker

/-- Chunks respect the limit, whatever the text and whatever the embedder does. -/
theorem chunks_fit :
    (∀ (chunkSize chunkOverlap : ℕ) (h : chunkOverlap < chunkSize) (text : List Char),
      ∀ chunk ∈ (RecursiveCharacterChunker.mk chunkSize chunkOverlap defaultSeparators h).split
        text, Fits chunkSize chunk) ∧
    ∀ {V R : Type} [LT R] [DecidableLT R] (self : SemanticChunker V R) (distance : V → V → R),
      self.fallback = none →
      self.consecutiveDistances = consecutiveDistances distance →
      self.OnePerSentence → ∀ text : List Char,
        ∃ chunks, self.split text = some chunks ∧
          ∀ chunk ∈ chunks, Fits self.maxChunkChars chunk := by
  constructor
  · intro chunkSize chunkOverlap h text
    exact RecursiveCharacterChunker.split_fits _ nil_mem_defaultSeparators text
  · intro V R _ _ self distance hfallback hdistances hembedder text
    exact SemanticChunker.split_fits hfallback hdistances hembedder text

/-- Sentences are told apart by their lengths, ten characters to a chunk. -/
def byLength : SemanticChunker ℕ ℕ where
  embedder := some fun sentences => some (sentences.map List.length)
  consecutiveDistances := consecutiveDistances fun m n => (m - n) + (n - m)
  percentile := fun distances => distances.foldl max 0 - 1
  maxChunkChars := 10
  minSentences := 2
  maxChunkChars_pos := by decide

theorem chunks_fit_byLength :
    (∀ chunk ∈ (RecursiveCharacterChunker.mk 4 1 defaultSeparators (by decide)).split
      ['a', 'b', ' ', 'c', 'd', 'e'], Fits 4 chunk) ∧
    ∃ chunks, byLength.split ['O', 'n', 'e', '.', ' ', 'T', 'w', 'o', 's', '.'] = some chunks ∧
      ∀ chunk ∈ chunks, Fits byLength.maxChunkChars chunk :=
  ⟨chunks_fit.1 4 1 (by decide) _,
    chunks_fit.2 byLength _ rfl rfl
      (fun embed hembed sentences vectors heq => by
        cases hembed
        cases heq
        exact List.length_map ..) _⟩

end Lour.Rag
