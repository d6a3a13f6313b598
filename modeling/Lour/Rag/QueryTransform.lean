import Lour.Lib.Lines
import Lour.Rag.Coverage
import Lour.Rag.MultiQuery
/-!
# `QueryTransformer`

The rewrites of a query, as the lines of the model's answer.  The list marker before a
rewrite is stripped as a set of characters, so that a rewrite that begins with one of
them loses its own.
-/

namespace Lour.Rag

open Lour.Lib Lour.Lib.Python

def hydePrompt (query : String) : String :=
  "Write a short, factual paragraph that directly answers the question below, " ++
    "as if quoting an authoritative document. Do not add caveats or say you are " ++
    "unsure — just write the passage.\n\nQuestion: " ++ query ++ "\n\nPassage:"

def multiQueryPrompt (query : String) (n : ℕ) : String :=
  "Rewrite the following search query in " ++ toString n ++ " different ways to maximise the " ++
    "chance of matching relevant documents. Vary wording and specificity. " ++
    "Return one rewrite per line, no numbering, no extra text.\n\nQuery: " ++ query

/-- A character of `"-*0123456789.) "`. -/
def isListMark (c : Char) : Bool :=
  c == '-' || c == '*' || c.isDigit || c == '.' || c == ')' || c == ' '

/-- `raw.strip().lstrip("-*0123456789.) ").strip()`. -/
def rewriteOf (raw : List Char) : List Char :=
  stripChars ((stripChars raw).dropWhile isListMark)

def parseLines (text : String) : List String :=
  ((splitlines text).map fun raw => String.ofList (rewriteOf raw)).filter (· ≠ "")

/-- The loop over the candidates.  (`lower` is `str.lower`; nothing here depends on
which characters it changes.) -/
def collect (lower : String → String) (n : ℕ) (seen out : List String) :
    List String → List String
  | [] => out
  | candidate :: rest =>
      let key := lower (strip candidate)
      let fresh := strip candidate ≠ "" ∧ key ∉ seen
      let seen := if fresh then key :: seen else seen
      let out := if fresh then out ++ [strip candidate] else out
      if n + 1 ≤ out.length then out else collect lower n seen out rest

structure QueryTransformer where
  /-- The content of the model's response to one user message. -/
  chat : String → Except RetrievalFailure String
  lower : String → String

namespace QueryTransformer

variable (self : QueryTransformer)

def hyde (query : String) : Except RetrievalFailure String := do
  let content ← self.chat (hydePrompt query)
  let passage := strip content
  .ok (if passage = "" then query else passage)

def multiQuery (query : String) (n : ℕ := 3) : Except RetrievalFailure (List String) := do
  let content ← self.chat (multiQueryPrompt query n)
  .ok (collect self.lower n [] [] (query :: parseLines content))

end QueryTransformer

/-! ## What the loop collects -/

section Collect

variable {lower : String → String} {n : ℕ} {seen out : List String}

/-- What the candidates stand for: trimmed, and not blank. -/
def trimmed (candidates : List String) : List String :=
  (candidates.map strip).filter (· ≠ "")

theorem mem_trimmed {candidates : List String} {q : String} (h : q ∈ trimmed candidates) :
    q ≠ "" ∧ strip q = q := by
  obtain ⟨hmem, hne⟩ := List.mem_filter.mp h
  obtain ⟨candidate, -, rfl⟩ := List.mem_map.mp hmem
  exact ⟨of_decide_eq_true hne, strip_strip candidate⟩

theorem trimmed_cons_blank {candidate : String} (h : strip candidate = "")
    (rest : List String) : trimmed (candidate :: rest) = trimmed rest := by
  rw [trimmed, List.map_cons, List.filter_cons_of_neg (by simp [h]), trimmed]

theorem trimmed_cons {candidate : String} (h : strip candidate ≠ "") (rest : List String) :
    trimmed (candidate :: rest) = strip candidate :: trimmed rest := by
  rw [trimmed, List.map_cons, List.filter_cons_of_pos (by simp [h]), trimmed]

/-- The loop keeps some of the candidates, in order, as many as there is room for and
no two that differ only in case. -/
structure Collected (lower : String → String) (n : ℕ) (out kept candidates : List String) :
    Prop where
  sublist : kept.Sublist (trimmed candidates)
  atMost : (out ++ kept).length ≤ n + 1
  distinct : (out.map lower).Nodup → ((out ++ kept).map lower).Nodup

theorem Collected.none (hout : out.length ≤ n + 1) (candidates : List String) :
    Collected lower n out [] candidates where
  sublist := List.nil_sublist _
  atMost := by rwa [List.append_nil]
  distinct := by
    rw [List.append_nil]
    exact id

/-- A candidate that is passed over. -/
theorem Collected.skip {candidate : String} {rest kept : List String}
    (h : Collected lower n out kept rest) : Collected lower n out kept (candidate :: rest) where
  sublist := by
    by_cases hblank : strip candidate = ""
    · rw [trimmed_cons_blank hblank]
      exact h.sublist
    · rw [trimmed_cons hblank]
      exact h.sublist.cons _
  atMost := h.atMost
  distinct := h.distinct

/-- A candidate that is kept. -/
theorem Collected.keep {candidate : String} {rest kept : List String}
    (hvisible : strip candidate ≠ "") (hnew : lower (strip candidate) ∉ out.map lower)
    (h : Collected lower n (out ++ [strip candidate]) kept rest) :
    Collected lower n out (strip candidate :: kept) (candidate :: rest) where
  sublist := by
    rw [trimmed_cons hvisible]
    exact h.sublist.cons_cons _
  atMost := by
    rw [List.append_cons]
    exact h.atMost
  distinct := by
    intro hnodup
    rw [List.append_cons]
    apply h.distinct
    rw [List.map_append, List.map_singleton, ← List.concat_eq_append]
    exact hnodup.concat hnew

theorem collect_stop {candidate : String} {rest : List String}
    (h : ¬ (strip candidate ≠ "" ∧ lower (strip candidate) ∉ seen)) (hout : out.length ≤ n) :
    collect lower n seen out (candidate :: rest) = collect lower n seen out rest := by
  rw [collect]
  simp only [if_neg h]
  rw [if_neg (by omega)]

theorem collect_fresh {candidate : String} {rest : List String}
    (h : strip candidate ≠ "" ∧ lower (strip candidate) ∉ seen) :
    collect lower n seen out (candidate :: rest) =
      if n + 1 ≤ (out ++ [strip candidate]).length then out ++ [strip candidate]
      else collect lower n (lower (strip candidate) :: seen) (out ++ [strip candidate]) rest := by
  rw [collect]
  simp only [if_pos h]

theorem keys_collected (hseen : ∀ key, key ∈ seen ↔ key ∈ out.map lower) (candidate : String) :
    ∀ key, key ∈ lower candidate :: seen ↔ key ∈ (out ++ [candidate]).map lower := by
  intro key
  rw [List.map_append, List.map_singleton, List.mem_append, List.mem_singleton, List.mem_cons,
    hseen key]
  exact or_comm

theorem exists_collected (candidates : List String) (hout : out.length ≤ n)
    (hseen : ∀ key, key ∈ seen ↔ key ∈ out.map lower) :
    ∃ kept, collect lower n seen out candidates = out ++ kept ∧
      Collected lower n out kept candidates := by
  induction candidates generalizing seen out with
  | nil => exact ⟨[], (List.append_nil out).symm, .none (by omega) []⟩
  | cons candidate rest ih =>
      by_cases hfresh : strip candidate ≠ "" ∧ lower (strip candidate) ∉ seen
      · rw [collect_fresh hfresh]
        obtain ⟨hvisible, hnew⟩ := hfresh
        rw [hseen] at hnew
        split
        next =>
            have hlength : (out ++ [strip candidate]).length ≤ n + 1 := by
              rw [List.length_append, List.length_singleton]
              omega
            exact ⟨[strip candidate], rfl, .keep hvisible hnew (.none hlength rest)⟩
        next hroom =>
            obtain ⟨kept, heq, hkept⟩ := ih (by omega) (keys_collected hseen (strip candidate))
            refine ⟨strip candidate :: kept, ?_, hkept.keep hvisible hnew⟩
            rw [heq, List.append_assoc, List.singleton_append]
      · rw [collect_stop hfresh hout]
        obtain ⟨kept, heq, hkept⟩ := ih hout hseen
        exact ⟨kept, heq, hkept.skip⟩

/-- Candidates that differ are all collected, as long as there is room. -/
theorem collect_all (candidates : List String)
    (hseen : ∀ key, key ∈ seen ↔ key ∈ out.map lower)
    (hdistinct : ((out ++ trimmed candidates).map lower).Nodup)
    (hroom : (out ++ trimmed candidates).length ≤ n + 1) (hout : out.length ≤ n) :
    collect lower n seen out candidates = out ++ trimmed candidates := by
  induction candidates generalizing seen out with
  | nil => exact (List.append_nil out).symm
  | cons candidate rest ih =>
      by_cases hblank : strip candidate = ""
      · rw [trimmed_cons_blank hblank] at hdistinct hroom ⊢
        rw [collect_stop (fun h => h.1 hblank) hout]
        exact ih hseen hdistinct hroom hout
      · rw [trimmed_cons hblank] at hdistinct hroom ⊢
        have hnew : lower (strip candidate) ∉ seen := by
          rw [hseen]
          intro hmem
          rw [List.map_append, List.nodup_append] at hdistinct
          exact hdistinct.2.2 _ hmem _ List.mem_cons_self rfl
        rw [List.append_cons] at hdistinct hroom ⊢
        rw [collect_fresh ⟨hblank, hnew⟩]
        split
        next hfull =>
            -- the last one there is room for is the last one there is
            rw [List.length_append] at hroom
            have hnil : trimmed rest = [] := List.eq_nil_of_length_eq_zero (by omega)
            rw [hnil, List.append_nil]
        next hmore =>
            exact ih (keys_collected hseen (strip candidate)) hdistinct hroom (by omega)

end Collect

/-! ## Rewrites as they were written -/

/-- `-`, `*`, or a number followed by `.` or `)`. -/
def IsListMarker (marker : List Char) : Prop :=
  marker = ['-'] ∨ marker = ['*'] ∨ ∃ digits stop, digits ≠ [] ∧ (∀ c ∈ digits, c.isDigit = true) ∧
    (stop = '.' ∨ stop = ')') ∧ marker = digits ++ [stop]

/-- Nothing but whitespace around the line and at most one list marker was removed. -/
def AsWritten (raw rewrite : List Char) : Prop :=
  rewrite = stripChars raw ∨
    ∃ marker rest, IsListMarker marker ∧ stripChars raw = marker ++ rest ∧ rewrite = stripChars rest

/-- Of the characters of list markers the line begins with none, or with one marker and
spaces, or it has no others. -/
def MarkedOnce (raw : List Char) : Prop :=
  (∀ c ∈ stripChars raw, isListMark c = true) ∨ (stripChars raw).takeWhile isListMark = [] ∨
    ∃ marker spaces, IsListMarker marker ∧ (∀ c ∈ spaces, isSpace c = true) ∧
      (stripChars raw).takeWhile isListMark = marker ++ spaces

theorem IsListMarker.isListMark {marker : List Char} (h : IsListMarker marker) :
    ∀ c ∈ marker, isListMark c = true := by
  rcases h with rfl | rfl | ⟨digits, stop, -, hdigits, hstop, rfl⟩
  · exact List.forall_mem_singleton.mpr rfl
  · exact List.forall_mem_singleton.mpr rfl
  · intro c hc
    rcases List.mem_append.mp hc with hdigit | hlast
    · simp [Rag.isListMark, hdigits c hdigit]
    · rw [List.mem_singleton.mp hlast]
      rcases hstop with rfl | rfl
      · rfl
      · rfl

theorem rewriteOf_eq_nil {raw : List Char} (h : ∀ c ∈ stripChars raw, isListMark c = true) :
    rewriteOf raw = [] := by
  rw [rewriteOf, List.dropWhile_eq_nil_iff.mpr h]
  rfl

/-- A line with any other character has a rewrite: its last character is visible. -/
theorem rewriteOf_ne_nil {raw : List Char} (h : ∃ c ∈ stripChars raw, isListMark c = false) :
    rewriteOf raw ≠ [] := by
  obtain ⟨c, hc, hmark⟩ := h
  have hdrop : (stripChars raw).dropWhile isListMark ≠ [] := by
    intro hnil
    rw [List.dropWhile_eq_nil_iff.mp hnil c hc] at hmark
    cases hmark
  have hne : stripChars raw ≠ [] := List.ne_nil_of_mem hc
  have hlast := stripChars_last hne
  rw [← (List.dropWhile_suffix isListMark).getLast hdrop] at hlast
  intro hnil
  rw [stripChars_eq_nil_iff.mp hnil _ (List.getLast_mem hdrop)] at hlast
  cases hlast

theorem rewriteOf_trimmed (raw : List Char) : stripChars (rewriteOf raw) = rewriteOf raw :=
  stripChars_stripChars _

/-- A rewrite is as it was written exactly where the line is marked at most once. -/
theorem asWritten_rewriteOf_iff {raw : List Char} (hne : rewriteOf raw ≠ []) :
    AsWritten raw (rewriteOf raw) ↔ MarkedOnce raw := by
  have hsplit := List.takeWhile_append_dropWhile (p := isListMark) (l := stripChars raw)
  constructor
  · rintro (hwhole | ⟨marker, rest, hmarker, hraw, hrewrite⟩)
    · right; left
      have hle := (stripChars_isInfix ((stripChars raw).dropWhile isListMark)).length_le
      have hlength := congrArg List.length hsplit
      rw [List.length_append] at hlength
      rw [rewriteOf] at hwhole
      rw [hwhole] at hle
      exact List.eq_nil_of_length_eq_zero (by omega)
    · right; right
      have htake : (stripChars raw).takeWhile isListMark =
          marker ++ rest.takeWhile isListMark := by
        rw [hraw]
        exact List.takeWhile_append_of_pos hmarker.isListMark
      refine ⟨marker, rest.takeWhile isListMark, hmarker, ?_, htake⟩
      have hdrop : (stripChars raw).dropWhile isListMark = rest.dropWhile isListMark := by
        rw [hraw]
        exact List.dropWhile_append_of_pos hmarker.isListMark
      -- what was stripped after the marker has no visible character
      have hvisible : nonSpace (rest.takeWhile isListMark) = [] := by
        rw [rewriteOf, hdrop] at hrewrite
        have hsame := congrArg nonSpace hrewrite
        rw [nonSpace_stripChars, nonSpace_stripChars] at hsame
        have hrest := congrArg nonSpace (List.takeWhile_append_dropWhile (p := isListMark)
          (l := rest))
        rw [nonSpace_append, hsame] at hrest
        exact List.append_left_eq_self.mp hrest
      intro c hc
      have hspace := List.filter_eq_nil_iff.mp hvisible c hc
      simpa using hspace
  · rintro (hall | hnone | ⟨marker, spaces, hmarker, hspaces, htake⟩)
    · exact absurd (rewriteOf_eq_nil hall) hne
    · left
      rw [hnone, List.nil_append] at hsplit
      rw [rewriteOf, hsplit, stripChars_stripChars]
    · right
      refine ⟨marker, spaces ++ (stripChars raw).dropWhile isListMark, hmarker, ?_, ?_⟩
      · rw [← List.append_assoc, ← htake, hsplit]
      · rw [stripChars_append_left hspaces, rewriteOf]

theorem AsWritten.visible {raw rewrite : List Char} (h : AsWritten raw rewrite)
    (hne : rewrite ≠ []) : stripChars raw ≠ [] := by
  intro hblank
  rcases h with hwhole | ⟨marker, rest, -, hraw, hrewrite⟩
  · exact hne (hwhole.trans hblank)
  · rw [hblank] at hraw
    rw [(List.append_eq_nil_iff.mp hraw.symm).2] at hrewrite
    exact hne hrewrite

/-- The query itself, unless it is blank. -/
def firstQuery (query : String) : List String := if strip query = "" then [] else [strip query]

/-- What `multi_query` promises of its queries, whatever the rewrites are. -/
structure Queries (lower : String → String) (query : String) (n : ℕ) (out later : List String) :
    Prop where
  first : out = firstQuery query ++ later
  atMost : out.length ≤ n + 1
  trimmed : ∀ q ∈ out, strip q ≠ "" ∧ strip q = q
  /-- Different ignoring case. -/
  distinct : (out.map lower).Nodup

/-- The rewrites are lines of the model's answer, in order. -/
def RewritesUsed (content : String) (later : List String) : Prop :=
  ∃ used, used.Sublist (splitlines content) ∧
    List.Forall₂ (fun raw rewrite => AsWritten raw rewrite.toList) used later

theorem trimmed_parseLines (content : String) :
    trimmed (parseLines content) = parseLines content := by
  have hstrip : (parseLines content).map strip = parseLines content := by
    apply (List.map_congr_left _).trans (List.map_id _)
    intro rewrite hmem
    obtain ⟨raw, -, rfl⟩ := List.mem_map.mp (List.mem_filter.mp hmem).1
    rw [strip, String.toList_ofList, rewriteOf_trimmed]
    rfl
  rw [trimmed, hstrip, parseLines, List.filter_filter]
  simp

theorem trimmed_query_cons (query content : String) :
    trimmed (query :: parseLines content) = firstQuery query ++ parseLines content := by
  rw [firstQuery]
  by_cases hblank : strip query = ""
  · rw [trimmed_cons_blank hblank, if_pos hblank, trimmed_parseLines, List.nil_append]
  · rw [trimmed_cons hblank, if_neg hblank, trimmed_parseLines, List.singleton_append]

section Queries

variable (lower : String → String) (query : String) (n : ℕ) (content : String)

/-- The loop from its second round on. -/
theorem exists_later :
    ∃ later, collect lower n [] [] (query :: parseLines content) = firstQuery query ++ later ∧
      Collected lower n (firstQuery query) later (parseLines content) := by
  rw [firstQuery]
  by_cases hblank : strip query = ""
  · rw [collect_stop (fun h => h.1 hblank) (Nat.zero_le n), if_pos hblank]
    exact exists_collected (parseLines content) (Nat.zero_le n) fun _ => Iff.rfl
  · rw [collect_fresh ⟨hblank, List.not_mem_nil⟩, if_neg hblank, List.nil_append,
      List.length_singleton]
    by_cases hfull : n + 1 ≤ 1
    · rw [if_pos hfull]
      refine ⟨[], rfl, List.nil_sublist _, ?_, id⟩
      rw [List.append_nil, List.length_singleton]
      omega
    · rw [if_neg hfull]
      apply exists_collected (parseLines content)
      · rw [List.length_singleton]
        omega
      · intro key
        rw [List.map_singleton]

theorem mem_firstQuery {q : String} (h : q ∈ firstQuery query) : strip q ≠ "" ∧ strip q = q := by
  rw [firstQuery] at h
  split at h
  next => exact absurd h List.not_mem_nil
  next hne =>
      rw [List.mem_singleton.mp h, strip_strip]
      exact ⟨hne, rfl⟩

theorem exists_queries :
    ∃ later, Queries lower query n (collect lower n [] [] (query :: parseLines content)) later ∧
      later.Sublist (parseLines content) := by
  obtain ⟨later, heq, hlater⟩ := exists_later lower query n content
  have hfirst : ((firstQuery query).map lower).Nodup := by
    rw [firstQuery]
    split
    next => exact List.nodup_nil
    next => exact List.nodup_singleton _
  refine ⟨later, ⟨heq, ?_, ?_, ?_⟩, ?_⟩
  · rw [heq]
    exact hlater.atMost
  · intro q hq
    rw [heq] at hq
    rcases List.mem_append.mp hq with hquery | hrewrite
    · exact mem_firstQuery query hquery
    · obtain ⟨hne, hstrip⟩ := mem_trimmed (hlater.sublist.subset hrewrite)
      rw [hstrip]
      exact ⟨hne, rfl⟩
  · rw [heq]
    exact hlater.distinct hfirst
  · have hsublist := hlater.sublist
    rwa [trimmed_parseLines] at hsublist

variable {content}

theorem rewritesUsed_of_sublist {later : List String} (hlater : later.Sublist (parseLines content))
    (h : ∀ raw ∈ splitlines content, MarkedOnce raw) : RewritesUsed content later := by
  rw [parseLines, List.filter_map] at hlater
  obtain ⟨used, hused, rfl⟩ := List.sublist_map_iff.mp hlater
  refine ⟨used, hused.trans List.filter_sublist, ?_⟩
  rw [List.forall₂_map_right_iff, List.forall₂_same]
  intro raw hmem
  obtain ⟨hline, hrewrite⟩ := List.mem_filter.mp (hused.subset hmem)
  have hne : rewriteOf raw ≠ [] := by
    intro hnil
    simp [hnil] at hrewrite
  rw [String.toList_ofList]
  exact (asWritten_rewriteOf_iff hne).mpr (h raw hline)

/-- Where every line that is not blank has a rewrite, the lines can only be used in
turn. -/
theorem markedOnce_of_rewritesUsed
    (hrewrites : ∀ raw ∈ splitlines content, stripChars raw ≠ [] → rewriteOf raw ≠ [])
    (h : RewritesUsed content (parseLines content)) :
    ∀ raw ∈ splitlines content, MarkedOnce raw := by
  obtain ⟨used, hused, hwritten⟩ := h
  have hparse : parseLines content =
      ((splitlines content).filter fun raw => stripChars raw ≠ []).map
        fun raw => String.ofList (rewriteOf raw) := by
    rw [parseLines, List.filter_map]
    congr 1
    apply List.filter_congr
    intro raw hline
    by_cases hblank : stripChars raw = []
    · have hnil : rewriteOf raw = [] := rewriteOf_eq_nil (by simp [hblank])
      simp [hblank, hnil]
    · simp [hblank, hrewrites raw hline hblank]
  have hvisible : ∀ raw ∈ used, stripChars raw ≠ [] := by
    intro raw hmem
    obtain ⟨i, hi, rfl⟩ := List.getElem_of_mem hmem
    have hi' : i < (parseLines content).length := hwritten.length_eq ▸ hi
    have hraw : AsWritten used[i] (parseLines content)[i].toList := hwritten.get hi hi'
    apply hraw.visible
    have hne := (List.mem_filter.mp (List.getElem_mem hi')).2
    intro hnil
    exact of_decide_eq_true hne (String.toList_eq_nil_iff.mp hnil)
  have hsublist : used.Sublist ((splitlines content).filter fun raw => stripChars raw ≠ []) := by
    have hfiltered := hused.filter fun raw => stripChars raw ≠ []
    rwa [List.filter_eq_self.mpr fun raw hmem => decide_eq_true (hvisible raw hmem)] at hfiltered
  have heq : used = (splitlines content).filter fun raw => stripChars raw ≠ [] := by
    apply hsublist.eq_of_length
    rw [hwritten.length_eq, hparse, List.length_map]
  rw [hparse, ← heq, List.forall₂_map_right_iff, List.forall₂_same] at hwritten
  intro raw hline
  by_cases hblank : stripChars raw = []
  · left
    rw [hblank]
    exact List.forall_mem_nil _
  · have hmem : raw ∈ used := by
      rw [heq, List.mem_filter]
      exact ⟨hline, decide_eq_true hblank⟩
    have hraw := hwritten raw hmem
    rw [String.toList_ofList] at hraw
    exact (asWritten_rewriteOf_iff (hrewrites raw hline hblank)).mp hraw

end Queries

/-- The queries are the trimmed query and rewrites as they were written. -/
def UsesRewrites (lower : String → String) (query : String) (n : ℕ) (content : String)
    (out : List String) : Prop :=
  ∃ later, Queries lower query n out later ∧ RewritesUsed content later

theorem usesRewrites_of_markedOnce (lower : String → String) (query : String) (n : ℕ)
    {content : String} (h : ∀ raw ∈ splitlines content, MarkedOnce raw) :
    UsesRewrites lower query n content (collect lower n [] [] (query :: parseLines content)) := by
  obtain ⟨later, hqueries, hsublist⟩ := exists_queries lower query n content
  exact ⟨later, hqueries, rewritesUsed_of_sublist hsublist h⟩

/-- Where all rewrites are returned. -/
theorem markedOnce_of_usesRewrites {lower : String → String} {query : String} {n : ℕ}
    {content : String}
    (hrewrites : ∀ raw ∈ splitlines content, stripChars raw ≠ [] → rewriteOf raw ≠ [])
    (hdistinct : ((firstQuery query ++ parseLines content).map lower).Nodup)
    (hroom : (firstQuery query ++ parseLines content).length ≤ n + 1)
    (h : UsesRewrites lower query n content
      (collect lower n [] [] (query :: parseLines content))) :
    ∀ raw ∈ splitlines content, MarkedOnce raw := by
  obtain ⟨later, hqueries, hused⟩ := h
  have hall : collect lower n [] [] (query :: parseLines content) =
      firstQuery query ++ parseLines content := by
    rw [← trimmed_query_cons] at hdistinct hroom ⊢
    rw [← List.nil_append (trimmed _)] at hdistinct hroom ⊢
    exact collect_all _ (fun _ => Iff.rfl) hdistinct hroom (Nat.zero_le n)
  have hlater : later = parseLines content := by
    have hfirst := hqueries.first
    rw [hall] at hfirst
    exact (List.append_cancel_left hfirst).symm
  rw [hlater] at hused
  exact markedOnce_of_rewritesUsed hrewrites hused

/-- Rewrites are used as written where every line is marked at most once; where all
rewrites are returned, nowhere else. -/
theorem multiQuery_rewrites (self : QueryTransformer) (query : String) (n : ℕ) {content : String}
    (hchat : self.chat (multiQueryPrompt query n) = .ok content) :
    ∃ out, self.multiQuery query n = .ok out ∧
      (∃ later, Queries self.lower query n out later ∧ later.Sublist (parseLines content)) ∧
      ((∀ raw ∈ splitlines content, MarkedOnce raw) →
        UsesRewrites self.lower query n content out) ∧
      ((∀ raw ∈ splitlines content, stripChars raw ≠ [] →
          ∃ c ∈ stripChars raw, isListMark c = false) →
        ((firstQuery query ++ parseLines content).map self.lower).Nodup →
        (firstQuery query ++ parseLines content).length ≤ n + 1 →
        (UsesRewrites self.lower query n content out ↔
          ∀ raw ∈ splitlines content, MarkedOnce raw)) := by
  refine ⟨collect self.lower n [] [] (query :: parseLines content), ?_,
    exists_queries self.lower query n content, usesRewrites_of_markedOnce self.lower query n, ?_⟩
  · rw [QueryTransformer.multiQuery, hchat]
    rfl
  · intro hrewrites hdistinct hroom
    constructor
    · apply markedOnce_of_usesRewrites _ hdistinct hroom
      exact fun raw hline hvisible => rewriteOf_ne_nil (hrewrites raw hline hvisible)
    · exact usesRewrites_of_markedOnce self.lower query n

/-- A model that has one answer. -/
def answering (content : String) : QueryTransformer := ⟨fun _ => .ok content, lowerAscii⟩

theorem multiQuery_rewrites_marked :
    ∃ out, (answering "- b").multiQuery "a" 1 = .ok out ∧
      UsesRewrites lowerAscii "a" 1 "- b" out ∧
      (UsesRewrites lowerAscii "a" 1 "- b" out ↔ ∀ raw ∈ splitlines "- b", MarkedOnce raw) := by
  obtain ⟨out, hout, -, hmarked, hexact⟩ :=
    @multiQuery_rewrites (answering "- b") "a" 1 "- b" rfl
  have hline : ∀ raw ∈ splitlines "- b", raw = ['-', ' ', 'b'] :=
    fun raw hraw => List.mem_singleton.mp hraw
  refine ⟨out, hout, hmarked ?_, hexact ?_ (by decide) (by decide)⟩
  · intro raw hraw
    rw [hline raw hraw]
    exact .inr (.inr ⟨['-'], [' '], .inl rfl, List.forall_mem_singleton.mpr rfl, rfl⟩)
  · intro raw hraw _
    rw [hline raw hraw]
    exact ⟨'b', by decide, rfl⟩

theorem not_asWritten : ¬ AsWritten "3D printing".toList "D printing".toList := by
  rintro (hwhole | ⟨marker, rest, hmarker, hraw, hrewrite⟩)
  · exact absurd hwhole (by decide)
  · have hline : stripChars "3D printing".toList = '3' :: 'D' :: " printing".toList := rfl
    rw [hline] at hraw
    rcases hmarker with rfl | rfl | ⟨digits, stop, hne, hdigits, hstop, rfl⟩
    · cases hraw
    · cases hraw
    · cases digits with
      | nil => exact hne rfl
      | cons d digits =>
          cases digits with
          | nil =>
              rcases hstop with rfl | rfl
              · cases hraw
              · cases hraw
          | cons e digits =>
              have he : e = 'D' := by
                injection hraw with _ htail
                injection htail with hhead _
                exact hhead.symm
              have hdigit := hdigits e (by simp)
              rw [he] at hdigit
              cases hdigit

theorem multiQuery_strips_rewrite :
    ¬ ∀ (self : QueryTransformer) (query : String) (n : ℕ) (content : String),
      self.chat (multiQueryPrompt query n) = .ok content →
      ∃ out, self.multiQuery query n = .ok out ∧
        UsesRewrites self.lower query n content out := by
  intro hall
  obtain ⟨out, hout, later, hqueries, used, hused, hwritten⟩ :=
    hall (answering "3D printing") "fused filament" 3 "3D printing" rfl
  have heq : (answering "3D printing").multiQuery "fused filament" 3 =
    .ok ["fused filament", "D printing"] := rfl
  rw [heq] at hout
  cases hout
  have hfirst : ["fused filament"] ++ ["D printing"] = ["fused filament"] ++ later :=
    hqueries.first
  have hlater : later = ["D printing"] := (List.append_cancel_left hfirst).symm
  rw [hlater, List.forall₂_cons_right_iff] at hwritten
  obtain ⟨raw, rest, hraw, -, rfl⟩ := hwritten
  have hline : raw = "3D printing".toList := List.mem_singleton.mp (hused.subset List.mem_cons_self)
  rw [hline] at hraw
  exact not_asWritten hraw

end Lour.Rag
