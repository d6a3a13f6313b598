import Lour.Rag.RawText
import Mathlib.Algebra.GroupWithZero.Nat
/-!
# Which posted texts survive

A request answered without an error leaves the texts posted before it stored,
unless it writes under the source of one of them.  On a corpus that held nothing
that comes to the sources being pairwise different: every text that is not blank
has a chunk.
-/

namespace Lour.Rag

open Lour.Lib Lour.Lib.Python

variable {V R δ σ : Type} [LT R] [DecidableLT R] {sha256 : String → String} {numpy : Numpy V R}
  {posts next : Posts δ σ} {visit : Visit V δ σ} {visits : List (Visit V δ σ)}
  {drafts : List (Draft δ σ)}

/-! ## One request -/

/-- The fast path finds no document with the text. -/
def Ingests (sha256 : String → String) (posts : Posts δ σ) (visit : Visit V δ σ) : Prop :=
  visit.request.force = true ∨
    ∀ d ∈ posts.corpus.database.documents, d.docHash ≠ sha256 visit.request.content

/-- The request does not write under the source of a text posted before, and a
document it is referred to has its points. -/
structure Keeps (sha256 : String → String) (posts : Posts δ σ) (visit : Visit V δ σ) : Prop where
  source : Ingests sha256 posts visit → ∀ d ∈ posts.corpus.database.documents,
    d.sourceUri = visit.request.textUri → d.docHash ∉ posts.hashes
  duplicate : ¬ Ingests sha256 posts visit → ∀ d ∈ posts.corpus.database.documents,
    d.docHash = sha256 visit.request.content → posts.corpus.Indexed d

/-- A text that is not blank has a chunk that is not. -/
theorem chunks_ne_nil {text : String} (h : isBlank text = false) {chunks : List String}
    (hchunks : visit.chunks numpy text = some chunks) :
    (chunks.filter fun chunk => !isBlank chunk) ≠ [] := by
  obtain ⟨found, hfound, rfl⟩ := Option.map_eq_some_iff.mp hchunks
  obtain ⟨chunk, hchunk, hvisible⟩ :=
    semanticSplit_visible rfl (blankChars_eq_false.mp h) hfound
  apply List.ne_nil_of_mem
  apply List.mem_filter.mpr
  refine ⟨List.mem_map_of_mem hchunk, ?_⟩
  rw [isBlank, String.toList_ofList]
  exact (Bool.not_eq_true' _).mpr (blankChars_eq_false.mpr hvisible)

/-- A text that was chunked without an exception has something to write. -/
theorem prepared_texts (h : isBlank visit.request.content = false) {docHash : String}
    {documentId : ℕ} {found : Option (Draft δ σ)}
    (hprepare : (visit.collaborators numpy).prepare docHash visit.request.loaded documentId =
      .ok found) :
    (visit.collaborators numpy).texts visit.request.loaded ≠ [] := by
  unfold Collaborators.prepare at hprepare
  obtain ⟨texts, htexts, -⟩ := bind_eq_ok.mp hprepare
  unfold Collaborators.chunkTexts Collaborators.segments at htexts
  obtain ⟨segments, hsegments, -⟩ := bind_eq_ok.mp htexts
  obtain ⟨⟨⟩, hcall, -⟩ := bind_eq_ok.mp hsegments
  have hsplits : (visit.chunks numpy visit.request.content).isNone = false := by
    unfold Collaborators.call at hcall
    split at hcall
    next => cases hcall
    next hraises =>
        have hquiet := (Bool.or_eq_false_iff.mp (Bool.eq_false_of_not_eq_true hraises)).2
        rwa [decide_eq_true rfl, Bool.true_and] at hquiet
  cases hchunks : visit.chunks numpy visit.request.content with
  | none =>
      rw [hchunks] at hsplits
      cases hsplits
  | some chunks =>
      have htexts : (visit.collaborators numpy).texts visit.request.loaded =
          chunks.filter fun chunk => !isBlank chunk := by
        change ((visit.chunks numpy visit.request.content).getD []).filter _ = _
        rw [hchunks]
        rfl
      rw [htexts]
      exact chunks_ne_nil h hchunks

/-- The draft a request writes, where it writes one. -/
def Visit.draft (sha256 : String → String) (numpy : Numpy V R) (visit : Visit V δ σ)
    (corpus : Corpus δ σ) : Draft δ σ :=
  draftOf sha256 (visit.collaborators numpy) visit.request.loaded corpus

/-- A call that returns and is not answered by the fast path has prepared its text. -/
theorem ingest_prepares {env : Collaborators δ σ} {loaded : LoadedDocument} {force : Bool}
    {corpus after : Corpus δ σ} {result : IngestResult} (hwf : corpus.WF)
    (hingests : force = true ∨
      ∀ d ∈ corpus.database.documents, d.docHash ≠ sha256 loaded.content)
    (h : ingest sha256 env loaded force corpus = (.ok result, after, drafts)) :
    ∃ found, env.prepare (sha256 loaded.content) loaded corpus.minted = .ok found := by
  unfold ingest at h
  dsimp only at h
  cases hduplicate : env.duplicate force (sha256 loaded.content) corpus.database with
  | error e =>
      rw [hduplicate] at h
      cases h
  | ok existing =>
      have hnone : existing = none := (duplicate_ok hwf hduplicate).mpr hingests
      subst hnone
      rw [hduplicate] at h
      cases hprepare : env.prepare (sha256 loaded.content) loaded corpus.minted with
      | error e =>
          rw [hprepare] at h
          cases h
      | ok found => exact ⟨found, rfl⟩

/-- A request that is answered finds its text, or commits it as a document. -/
theorem ingestRoute_cases (hwf : posts.corpus.WF) (hraw : visit.request.source = none)
    (hblank : isBlank visit.request.content = false)
    (hstep : (ingestRoute sha256 numpy).step posts visit = some (next, drafts)) :
    next.hashes = posts.hashes ++ [sha256 visit.request.content] ∧
      ((¬ Ingests sha256 posts visit ∧ next.corpus = posts.corpus) ∨
        (Ingests sha256 posts visit ∧ (visit.draft sha256 numpy posts.corpus).texts ≠ [] ∧
          ∃ points, List.Forall₂ (visit.draft sha256 numpy posts.corpus).Indexes
              (visit.draft sha256 numpy posts.corpus).chunks points ∧
            next.corpus = posts.corpus.committed (visit.draft sha256 numpy posts.corpus)
              visit.env.now points)) := by
  have hperform : perform sha256 (visit.collaborators numpy) visit.request.call posts.corpus =
      ingest sha256 (visit.collaborators numpy) visit.request.loaded visit.request.force
        posts.corpus := by
    unfold perform IngestRequest.call
    rw [hraw]
    rfl
  simp only [ingestRoute, hperform] at hstep
  split at hstep
  next result corpus out hingest =>
      cases hstep
      refine ⟨rfl, ?_⟩
      have hcases := ingest_cases sha256 (visit.collaborators numpy) visit.request.loaded
        visit.request.force hwf
      rw [hingest] at hcases
      dsimp only at hcases
      cases hcases with
      | skipped result hstops =>
          left
          refine ⟨fun hingests => hstops ⟨hingests, ?_⟩, rfl⟩
          have hfresh : visit.request.force = true ∨
              ∀ d ∈ posts.corpus.database.documents,
                d.docHash ≠ sha256 visit.request.loaded.content := hingests
          obtain ⟨found, hprepare⟩ := ingest_prepares hwf hfresh hingest
          exact prepared_texts hblank hprepare
      | wrote r after hproceeds hwritten =>
          right
          cases hwritten with
          | committed result points hpoints =>
              exact ⟨hproceeds.1, hproceeds.2, points, hpoints, rfl⟩
  next => cases hstep

theorem ingestRoute_wf (hwf : posts.corpus.WF) (hraw : visit.request.source = none)
    (hblank : isBlank visit.request.content = false)
    (hstep : (ingestRoute sha256 numpy).step posts visit = some (next, drafts)) :
    next.corpus.WF := by
  obtain ⟨-, ⟨-, hsame⟩ | ⟨-, htexts, points, hpoints, hcommitted⟩⟩ :=
    ingestRoute_cases hwf hraw hblank hstep
  · rw [hsame]
    exact hwf
  · rw [hcommitted]
    exact committed_wf visit.env.now hwf rfl htexts hpoints

/-- All the texts posted so far are stored. -/
def AllStored (posts : Posts δ σ) : Prop :=
  ∀ docHash ∈ posts.hashes, posts.corpus.Stored docHash

section Step

variable (hwf : posts.corpus.WF) (hraw : visit.request.source = none)
  (hblank : isBlank visit.request.content = false)
  (hnew : sha256 visit.request.content ∉ posts.hashes)
  (hstep : (ingestRoute sha256 numpy).step posts visit = some (next, drafts))

include hwf hraw hblank hnew hstep

/-- A text posted before that is stored after the request was stored before it. -/
theorem stored_before {docHash : String} (hmem : docHash ∈ posts.hashes)
    (hstored : next.corpus.Stored docHash) : posts.corpus.Stored docHash := by
  obtain ⟨-, ⟨-, hsame⟩ | ⟨-, htexts, points, hpoints, hcommitted⟩⟩ :=
    ingestRoute_cases hwf hraw hblank hstep
  · rwa [hsame] at hstored
  · rw [hcommitted] at hstored
    have hother : docHash ≠ (visit.draft sha256 numpy posts.corpus).docHash := by
      rintro rfl
      exact hnew hmem
    exact ((committed_stored_iff visit.env.now hwf rfl hpoints hother).mp hstored).1

/-- Of a step from a corpus that holds all the texts posted. -/
theorem allStored_step_iff (hall : AllStored posts) :
    AllStored next ↔ Keeps sha256 posts visit := by
  obtain ⟨hhashes, hcases⟩ := ingestRoute_cases hwf hraw hblank hstep
  have hsplit : AllStored next ↔ (∀ docHash ∈ posts.hashes, next.corpus.Stored docHash) ∧
      next.corpus.Stored (sha256 visit.request.content) := by
    rw [AllStored, hhashes]
    simp only [List.mem_append, List.mem_singleton]
    constructor
    · exact fun h => ⟨fun docHash hmem => h docHash (.inl hmem), h _ (.inr rfl)⟩
    · rintro ⟨hold, hlast⟩ docHash (hmem | rfl)
      · exact hold docHash hmem
      · exact hlast
  rw [hsplit]
  rcases hcases with ⟨hfound, hsame⟩ | ⟨hingests, htexts, points, hpoints, hcommitted⟩
  · rw [hsame]
    constructor
    · rintro ⟨-, d, hd, hhash, -, hindexed⟩
      refine ⟨fun hingests => absurd hingests hfound, fun _ e he heq => ?_⟩
      rwa [hwf.hash_inj he hd (heq.trans hhash.symm)]
    · intro hkeeps
      refine ⟨hall, ?_⟩
      have hexists := hfound
      rw [Ingests, not_or] at hexists
      push Not at hexists
      obtain ⟨-, d, hd, hhash⟩ := hexists
      exact ⟨d, hd, hhash, hwf.has_row hd, hkeeps.duplicate hfound d hd hhash⟩
  · rw [hcommitted]
    have hother : ∀ docHash ∈ posts.hashes,
        docHash ≠ (visit.draft sha256 numpy posts.corpus).docHash := by
      rintro docHash hmem rfl
      exact hnew hmem
    have hlast := committed_stored visit.env.now hwf rfl htexts hpoints
    constructor
    · rintro ⟨hold, -⟩
      refine ⟨fun _ d hd hsource hmem => ?_, fun hfound => absurd hingests hfound⟩
      have hkept := (committed_stored_iff visit.env.now hwf rfl hpoints
        (hother d.docHash hmem)).mp (hold d.docHash hmem)
      exact hkept.2 d hd rfl hsource
    · intro hkeeps
      refine ⟨fun docHash hmem => ?_, hlast⟩
      apply (committed_stored_iff visit.env.now hwf rfl hpoints (hother docHash hmem)).mpr
      refine ⟨hall docHash hmem, ?_⟩
      rintro d hd rfl hsource
      exact hkeeps.source hingests d hd hsource hmem

end Step

/-! ## Whole runs -/

def Visit.hash (sha256 : String → String) (visit : Visit V δ σ) : String :=
  sha256 visit.request.content

/-- Raw texts that are not blank. -/
def RawTexts (visits : List (Visit V δ σ)) : Prop :=
  ∀ visit ∈ visits, visit.request.source = none ∧ isBlank visit.request.content = false

theorem RawTexts.cons (h : RawTexts (visit :: visits)) :
    (visit.request.source = none ∧ isBlank visit.request.content = false) ∧ RawTexts visits :=
  List.forall_mem_cons.mp h

theorem nodup_step {hash : String} {hashes rest : List String}
    (h : (hashes ++ hash :: rest).Nodup) :
    hash ∉ hashes ∧ ((hashes ++ [hash]) ++ rest).Nodup := by
  constructor
  · intro hmem
    exact (List.nodup_append.mp h).2.2 hash hmem hash List.mem_cons_self rfl
  · rwa [List.append_assoc]

theorem run_hashes (hwf : posts.corpus.WF) (hraw : RawTexts visits)
    (hrun : (ingestRoute sha256 numpy).run posts visits = some (next, drafts)) :
    next.hashes = posts.hashes ++ visits.map (Visit.hash sha256) := by
  induction visits generalizing posts drafts with
  | nil =>
      cases hrun
      exact (List.append_nil _).symm
  | cons visit visits ih =>
      obtain ⟨⟨hsource, hblank⟩, hrest⟩ := hraw.cons
      obtain ⟨mid, out, rest, hstep, htail, rfl⟩ := (ingestRoute sha256 numpy).run_cons.mp hrun
      have hmid := ingestRoute_wf hwf hsource hblank hstep
      have hhashes := (ingestRoute_cases hwf hsource hblank hstep).1
      rw [ih hmid hrest htail, hhashes, List.map_cons, List.append_assoc]
      rfl

/-- A text posted before that is stored at the end of a run was stored at its start. -/
theorem run_stored_before {docHash : String} (hwf : posts.corpus.WF) (hraw : RawTexts visits)
    (hnodup : (posts.hashes ++ visits.map (Visit.hash sha256)).Nodup)
    (hrun : (ingestRoute sha256 numpy).run posts visits = some (next, drafts))
    (hmem : docHash ∈ posts.hashes) (hstored : next.corpus.Stored docHash) :
    posts.corpus.Stored docHash := by
  induction visits generalizing posts drafts with
  | nil =>
      cases hrun
      exact hstored
  | cons visit visits ih =>
      obtain ⟨⟨hsource, hblank⟩, hrest⟩ := hraw.cons
      obtain ⟨mid, out, rest, hstep, htail, rfl⟩ := (ingestRoute sha256 numpy).run_cons.mp hrun
      obtain ⟨hnew, hnodup⟩ := nodup_step hnodup
      have hhashes := (ingestRoute_cases hwf hsource hblank hstep).1
      apply stored_before hwf hsource hblank hnew hstep hmem
      apply ih (ingestRoute_wf hwf hsource hblank hstep) hrest _ htail
      · rw [hhashes]
        exact List.mem_append_left _ hmem
      · rw [hhashes]
        exact hnodup

/-- The texts are all stored at the end exactly when every step keeps them. -/
theorem run_allStored_iff (hwf : posts.corpus.WF) (hraw : RawTexts visits)
    (hnodup : (posts.hashes ++ visits.map (Visit.hash sha256)).Nodup) (hall : AllStored posts)
    (hrun : (ingestRoute sha256 numpy).run posts visits = some (next, drafts)) :
    AllStored next ↔ (ingestRoute sha256 numpy).AllSteps (Keeps sha256) posts visits := by
  induction visits generalizing posts drafts with
  | nil =>
      cases hrun
      exact ⟨fun _ => trivial, fun _ => hall⟩
  | cons visit visits ih =>
      obtain ⟨⟨hsource, hblank⟩, hrest⟩ := hraw.cons
      obtain ⟨mid, out, rest, hstep, htail, rfl⟩ := (ingestRoute sha256 numpy).run_cons.mp hrun
      obtain ⟨hnew, hlater⟩ := nodup_step hnodup
      have hmid := ingestRoute_wf hwf hsource hblank hstep
      have hhashes := (ingestRoute_cases hwf hsource hblank hstep).1
      have hkeeps := allStored_step_iff hwf hsource hblank hnew hstep hall
      have hmidNodup : (mid.hashes ++ visits.map (Visit.hash sha256)).Nodup := by
        rw [hhashes]
        exact hlater
      constructor
      · intro hlast mid' out' hstep'
        obtain ⟨rfl, rfl⟩ := Prod.mk.inj (Option.some.inj (hstep.symm.trans hstep'))
        have hmidAll : AllStored mid := by
          intro docHash hmem
          apply run_stored_before hmid hrest hmidNodup htail hmem
          apply hlast
          rw [run_hashes hmid hrest htail]
          exact List.mem_append_left _ hmem
        exact ⟨hkeeps.mp hmidAll, (ih hmid hrest hmidNodup hmidAll htail).mp hlast⟩
      · intro hsteps
        obtain ⟨hkept, hlaterSteps⟩ := hsteps mid out hstep
        exact (ih hmid hrest hmidNodup (hkeeps.mpr hkept) htail).mpr hlaterSteps

/-! ## From an empty corpus -/

/-- The documents are those of the posts so far, each under its own source. -/
structure OwnSources (posts : Posts δ σ) (sources : List String) : Prop where
  wf : posts.corpus.WF
  documents : ∀ d ∈ posts.corpus.database.documents, d.docHash ∈ posts.hashes
  sources : ∀ source, source ∈ sources ↔
    ∃ d ∈ posts.corpus.database.documents, d.sourceUri = source

/-- Of such a corpus a text with a new hash is ingested, and kept means kept apart. -/
theorem OwnSources.keeps_iff {sources : List String} (h : OwnSources posts sources)
    (hnew : sha256 visit.request.content ∉ posts.hashes) :
    Keeps sha256 posts visit ↔ visit.request.textUri ∉ sources := by
  have hingests : Ingests sha256 posts visit := by
    right
    rintro d hd heq
    exact hnew (heq ▸ h.documents d hd)
  constructor
  · intro hkeeps hmem
    obtain ⟨d, hd, hsource⟩ := (h.sources _).mp hmem
    exact hkeeps.source hingests d hd hsource (h.documents d hd)
  · intro hfresh
    refine ⟨fun _ d hd hsource => ?_, fun hfound => absurd hingests hfound⟩
    exact absurd ((h.sources _).mpr ⟨d, hd, hsource⟩) hfresh

theorem OwnSources.step {sources : List String} (h : OwnSources posts sources)
    (hraw : visit.request.source = none) (hblank : isBlank visit.request.content = false)
    (hnew : sha256 visit.request.content ∉ posts.hashes)
    (hfresh : visit.request.textUri ∉ sources)
    (hstep : (ingestRoute sha256 numpy).step posts visit = some (next, drafts)) :
    OwnSources next (sources ++ [visit.request.textUri]) := by
  obtain ⟨hhashes, ⟨hfound, -⟩ | ⟨-, -, points, -, hcommitted⟩⟩ :=
    ingestRoute_cases h.wf hraw hblank hstep
  · refine absurd (.inr ?_) hfound
    rintro d hd heq
    exact hnew (heq ▸ h.documents d hd)
  · have hmem : ∀ d, d ∈ next.corpus.database.documents ↔
        d ∈ posts.corpus.database.documents ∨
          d = (visit.draft sha256 numpy posts.corpus).document visit.env.now := by
      intro d
      rw [hcommitted, mem_committed visit.env.now h.wf]
      apply or_congr_left
      constructor
      · exact fun hd => hd.1
      · intro hd
        refine ⟨hd, ?_, ?_⟩
        · rintro heq
          have hposted := h.documents d hd
          rw [heq] at hposted
          exact hnew hposted
        · intro heq
          exact hfresh ((h.sources _).mpr ⟨d, hd, heq⟩)
    refine ⟨ingestRoute_wf h.wf hraw hblank hstep, ?_, ?_⟩
    · intro d hd
      rw [hhashes]
      rcases (hmem d).mp hd with hd | rfl
      · exact List.mem_append_left _ (h.documents d hd)
      · exact List.mem_append_right _ (List.mem_singleton_self _)
    · intro source
      rw [List.mem_append, List.mem_singleton, h.sources]
      constructor
      · rintro (⟨d, hd, hsource⟩ | rfl)
        · exact ⟨d, (hmem d).mpr (.inl hd), hsource⟩
        · exact ⟨_, (hmem _).mpr (.inr rfl), rfl⟩
      · rintro ⟨d, hd, hsource⟩
        rcases (hmem d).mp hd with hd | rfl
        · exact .inl ⟨d, hd, hsource⟩
        · exact .inr hsource.symm

theorem OwnSources.allSteps_iff {sources : List String} (h : OwnSources posts sources)
    (hraw : RawTexts visits)
    (hnodup : (posts.hashes ++ visits.map (Visit.hash sha256)).Nodup) (hsources : sources.Nodup)
    (hrun : (ingestRoute sha256 numpy).run posts visits = some (next, drafts)) :
    (ingestRoute sha256 numpy).AllSteps (Keeps sha256) posts visits ↔
      (sources ++ visits.map fun visit => visit.request.textUri).Nodup := by
  induction visits generalizing posts sources drafts with
  | nil =>
      rw [List.map_nil, List.append_nil]
      exact ⟨fun _ => hsources, fun _ => trivial⟩
  | cons visit visits ih =>
      obtain ⟨⟨hsource, hblank⟩, hrest⟩ := hraw.cons
      obtain ⟨mid, out, rest, hstep, htail, rfl⟩ := (ingestRoute sha256 numpy).run_cons.mp hrun
      obtain ⟨hnew, hlater⟩ := nodup_step hnodup
      have hhashes := (ingestRoute_cases h.wf hsource hblank hstep).1
      have hmidNodup : (mid.hashes ++ visits.map (Visit.hash sha256)).Nodup := by
        rw [hhashes]
        exact hlater
      have hgo : visit.request.textUri ∉ sources →
          ((ingestRoute sha256 numpy).AllSteps (Keeps sha256) mid visits ↔
            ((sources ++ [visit.request.textUri]) ++
              visits.map fun visit => visit.request.textUri).Nodup) := by
        intro hfresh
        apply ih (h.step hsource hblank hnew hfresh hstep) hrest hmidNodup _ htail
        exact List.nodup_append.mpr ⟨hsources, List.nodup_singleton _, by
          intro a ha b hb heq
          rw [List.mem_singleton.mp hb] at heq
          exact hfresh (heq ▸ ha)⟩
      rw [List.append_assoc] at hgo
      constructor
      · intro hsteps
        obtain ⟨hkeeps, hmidSteps⟩ := hsteps mid out hstep
        exact (hgo ((h.keeps_iff hnew).mp hkeeps)).mp hmidSteps
      · intro hdistinct mid' out' hstep'
        obtain ⟨rfl, rfl⟩ := Prod.mk.inj (Option.some.inj (hstep.symm.trans hstep'))
        have hfresh := (nodup_step hdistinct).1
        exact ⟨(h.keeps_iff hnew).mpr hfresh, (hgo hfresh).mpr hdistinct⟩

/-- After any requests with raw texts, all of them answered and with different
hashes, every text is stored exactly when no step wrote under the source of a text
posted before and the documents found had their points.  On an empty corpus that is
to say that the sources are pairwise different. -/
theorem raw_texts_survive_iff (sha256 : String → String) (numpy : Numpy V R)
    (calls : List (IngestCall × Collaborators δ σ)) (earlier : List (Draft δ σ))
    (corpus : Corpus δ σ) (visits : List (Visit V δ σ)) (posts : Posts δ σ)
    (drafts : List (Draft δ σ))
    (hreach : (corpusSystem δ σ sha256).run {} calls = some (corpus, earlier))
    (hraw : RawTexts visits) (hhashes : (visits.map (Visit.hash sha256)).Nodup)
    (hrun : (ingestRoute sha256 numpy).run { corpus } visits = some (posts, drafts)) :
    ((∀ visit ∈ visits, posts.corpus.Stored (visit.hash sha256)) ↔
        (ingestRoute sha256 numpy).AllSteps (Keeps sha256) { corpus } visits) ∧
      (corpus = {} → ((∀ visit ∈ visits, posts.corpus.Stored (visit.hash sha256)) ↔
        (visits.map fun visit => visit.request.textUri).Nodup)) := by
  have hwf := reachable_wf hreach
  have hposted : posts.hashes = visits.map (Visit.hash sha256) := run_hashes hwf hraw hrun
  have hstored : (∀ visit ∈ visits, posts.corpus.Stored (visit.hash sha256)) ↔
      AllStored posts := by
    rw [AllStored, hposted]
    exact List.forall_mem_map.symm
  have hnone : AllStored ({ corpus } : Posts δ σ) :=
    fun docHash hmem => absurd hmem List.not_mem_nil
  have hnodup : (({ corpus } : Posts δ σ).hashes ++ visits.map (Visit.hash sha256)).Nodup :=
    hhashes
  have hsteps := run_allStored_iff hwf hraw hnodup hnone hrun
  refine ⟨hstored.trans hsteps, ?_⟩
  rintro rfl
  have hown : OwnSources ({ corpus := {} } : Posts δ σ) [] :=
    ⟨hwf, fun d hd => absurd hd List.not_mem_nil, by simp⟩
  have hsources := hown.allSteps_iff hraw hnodup List.nodup_nil hrun
  exact (hstored.trans hsteps).trans hsources

/-- A request with a text, where the embedder of the sentences is not reached. -/
def postText (text : String) (title : Option String) (h : text ≠ "") : Visit ℕ ℕ ℕ where
  request :=
    { text := some text
      title
      exactlyOneInput := by simpa using h.symm }
  embedSentences _ := none
  env := stubCollaborators

def stubNumpy : Numpy ℕ ℕ := ⟨id, List.sum⟩

theorem raw_texts_survive_titled :
    ∃ posts drafts, (ingestRoute id stubNumpy).run { corpus := {} }
        [postText "alpha" (some "a") (by decide), postText "beta" none (by decide)] =
          some (posts, drafts) ∧
      posts.corpus.Stored "alpha" ∧ posts.corpus.Stored "beta" := by
  refine ⟨_, _, rfl, ?_⟩
  have hsurvive := (raw_texts_survive_iff id stubNumpy [] [] {}
    [postText "alpha" (some "a") (by decide), postText "beta" none (by decide)] _ _ rfl
    (by
      intro visit hvisit
      rcases List.mem_cons.mp hvisit with rfl | hvisit
      · exact ⟨rfl, rfl⟩
      · rw [List.mem_singleton.mp hvisit]
        exact ⟨rfl, rfl⟩)
    (by decide) rfl).2 rfl
  have hall := hsurvive.mpr (by decide)
  exact ⟨hall _ List.mem_cons_self, hall _ (List.mem_cons_of_mem _ List.mem_cons_self)⟩

/-- Two texts without a title. -/
theorem raw_text_overwritten :
    ¬ ∀ (sha256 : String → String) (numpy : Numpy ℕ ℕ) (visits : List (Visit ℕ ℕ ℕ))
      (posts : Posts ℕ ℕ) (drafts : List (Draft ℕ ℕ)), RawTexts visits →
      (visits.map (Visit.hash sha256)).Nodup →
      (visits.filterMap fun visit => visit.request.title).Nodup →
      (ingestRoute sha256 numpy).run { corpus := {} } visits = some (posts, drafts) →
      ∀ visit ∈ visits, posts.corpus.Stored (visit.hash sha256) := by
  intro h
  have hall := h id stubNumpy
    [postText "alpha" none (by decide), postText "beta" none (by decide)] _ _
    (by
      intro visit hvisit
      rcases List.mem_cons.mp hvisit with rfl | hvisit
      · exact ⟨rfl, rfl⟩
      · rw [List.mem_singleton.mp hvisit]
        exact ⟨rfl, rfl⟩)
    (by decide) (by decide) rfl
  obtain ⟨d, hd, hhash, -⟩ := hall _ List.mem_cons_self
  have hbeta : d.docHash ∈ ["beta"] := List.mem_map_of_mem hd
  rw [hhash] at hbeta
  exact absurd hbeta (by decide)

end Lour.Rag
