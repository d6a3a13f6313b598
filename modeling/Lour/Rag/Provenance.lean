import Lour.Rag.Failure
/-!
# Which ingestion a stored item stems from

Every document, chunk row and point carries the id of the draft that wrote it,
also when that draft never committed.  What is stored under a source stems from
the content last ingested there unless an early exit kept an older document, or
a failed ingestion left a point behind that no chunk row knows.
-/

namespace Lour.Rag

open Lour.Lib Lour.Lib.Python

variable {δ σ : Type} {env : Collaborators δ σ} {corpus after : Corpus δ σ} {draft : Draft δ σ}
  {drafts new : List (Draft δ σ)} {r : Except Failure IngestResult}

/-! ## What a write brings -/

/-- PostgreSQL changes by a whole replacement or not at all. -/
theorem written_database (hwritten : Written env draft corpus r after) :
    after.database = corpus.database ∨
      ∃ createdAt, after.database = corpus.database.replaced draft createdAt := by
  cases hwritten with
  | rolledBack e hupsert hcommit => exact .inl rfl
  | halfway hraises => exact .inl rfl
  | uncommitted hraises points hpoints => exact .inl rfl
  | committed result points hpoints => exact .inr ⟨env.now, rfl⟩

theorem written_documents (hwritten : Written env draft corpus r after) :
    ∀ d ∈ after.database.documents,
      d ∈ corpus.database.documents ∨ ∃ createdAt, d = draft.document createdAt := by
  intro d hd
  rcases written_database hwritten with hsame | ⟨createdAt, hreplaced⟩
  · rw [hsame] at hd
    exact .inl hd
  · rw [hreplaced] at hd
    rcases List.mem_append.mp hd with hd | hd
    · exact .inl (List.mem_of_mem_filter hd)
    · exact .inr ⟨createdAt, List.mem_singleton.mp hd⟩

theorem written_chunks (hwritten : Written env draft corpus r after) :
    ∀ c ∈ after.database.chunks, c ∈ corpus.database.chunks ∨ c ∈ draft.chunks := by
  intro c hc
  rcases written_database hwritten with hsame | ⟨createdAt, hreplaced⟩
  · rw [hsame] at hc
    exact .inl hc
  · rw [hreplaced] at hc
    exact (List.mem_append.mp hc).imp_left List.mem_of_mem_filter

theorem indexed_origin {points : List (Point δ σ)}
    (hpoints : List.Forall₂ draft.Indexes draft.chunks points) {p : Point δ σ} (hp : p ∈ points) :
    p.payload.documentId = draft.documentId ∧ p.payload.sourceUri = draft.loaded.sourceUri := by
  obtain ⟨c, -, dense, sparse, -, -, rfl⟩ := forall₂_partner hpoints hp
  exact ⟨rfl, rfl⟩

theorem written_points (hid : draft.documentId = corpus.minted)
    (hwritten : Written env draft corpus r after) :
    ∀ p ∈ after.points, p ∈ corpus.points ∨ corpus.minted < p.id ∧
      p.payload.documentId = draft.documentId ∧ p.payload.sourceUri = draft.loaded.sourceUri := by
  have hstored : ∀ points, List.Forall₂ draft.Indexes draft.chunks points →
      ∀ p ∈ corpus.kept draft ++ points, p ∈ corpus.points ∨ corpus.minted < p.id ∧
        p.payload.documentId = draft.documentId ∧
        p.payload.sourceUri = draft.loaded.sourceUri := by
    intro points hpoints p hp
    rcases List.mem_append.mp hp with hp | hp
    · exact .inl (mem_kept.mp hp).1
    · exact .inr ⟨(indexed_lt hid hpoints p hp).1, indexed_origin hpoints hp⟩
  cases hwritten with
  | rolledBack e hupsert hcommit => exact fun p hp => .inl hp
  | halfway hraises => exact fun p hp => .inl (mem_kept.mp hp).1
  | uncommitted hraises points hpoints => exact hstored points hpoints
  | committed result points hpoints => exact hstored points hpoints

theorem written_minted (hwritten : Written env draft corpus r after) :
    after.minted = corpus.minted + 1 + draft.texts.length := by
  cases hwritten <;> rfl

/-! ## Tracing items to drafts -/

/-- Each document and each point has its draft, and each chunk row its point's. -/
structure Traced (corpus : Corpus δ σ) (drafts : List (Draft δ σ)) : Prop where
  distinct : (drafts.map Draft.documentId).Nodup
  drafts_lt : ∀ e ∈ drafts, e.documentId < corpus.minted
  documents : ∀ d ∈ corpus.database.documents, ∃ e ∈ drafts,
    e.documentId = d.id ∧ e.loaded.sourceUri = d.sourceUri
  points : ∀ p ∈ corpus.points, ∃ e ∈ drafts,
    e.documentId = p.payload.documentId ∧ e.loaded.sourceUri = p.payload.sourceUri
  rows : ∀ p ∈ corpus.points, ∀ c ∈ corpus.database.chunks, c.pointId = p.id →
    c.documentId = p.payload.documentId

theorem Traced.write (h : Traced corpus drafts) (hwf : corpus.WF)
    (hid : draft.documentId = corpus.minted) (hwritten : Written env draft corpus r after) :
    Traced after (drafts ++ [draft]) where
  distinct := by
    apply nodup_map_snoc h.distinct
    intro e he heq
    have hlt := h.drafts_lt e he
    omega
  drafts_lt e he := by
    have hminted := written_minted hwritten
    rcases List.mem_append.mp he with he | he
    · have hlt := h.drafts_lt e he
      omega
    · rw [List.mem_singleton.mp he]
      omega
  documents d hd := by
    rcases written_documents hwritten d hd with hd | ⟨createdAt, rfl⟩
    · obtain ⟨e, he, horigin⟩ := h.documents d hd
      exact ⟨e, List.mem_append_left _ he, horigin⟩
    · exact ⟨draft, List.mem_append_right _ (List.mem_singleton_self _), rfl, rfl⟩
  points p hp := by
    rcases written_points hid hwritten p hp with hp | ⟨-, hdocument, hsource⟩
    · obtain ⟨e, he, horigin⟩ := h.points p hp
      exact ⟨e, List.mem_append_left _ he, horigin⟩
    · exact ⟨draft, List.mem_append_right _ (List.mem_singleton_self _), hdocument.symm,
        hsource.symm⟩
  rows p hp c hc hpoint := by
    rcases written_points hid hwritten p hp with hp | ⟨hnew, hdocument, -⟩
    · have hplt := hwf.points_lt p hp
      rcases written_chunks hwritten c hc with hc | hc
      · exact h.rows p hp c hc hpoint
      · obtain ⟨-, hcid, -⟩ := draft_chunk_mem hc
        omega
    · rcases written_chunks hwritten c hc with hc | hc
      · have hclt := hwf.rows_lt c hc
        omega
      · rw [hdocument]
        exact (draft_chunk_mem hc).1

theorem step_traced {sha256 : String → String} {call : IngestCall × Collaborators δ σ}
    (h : Traced corpus drafts) (hwf : corpus.WF)
    (hstep : (corpusSystem δ σ sha256).step corpus call = some (after, new)) :
    Traced after (drafts ++ new) := by
  rcases corpusSystem_cases hwf hstep with ⟨rfl, rfl⟩ | ⟨loaded, r, -, hingested⟩
  · rwa [List.append_nil]
  · cases hingested with
    | failed e hupsert hcommit => rwa [List.append_nil]
    | skipped result hstops => rwa [List.append_nil]
    | wrote r after hproceeds hwritten => exact h.write hwf rfl hwritten

theorem reachable_traced {sha256 : String → String}
    {calls : List (IngestCall × Collaborators δ σ)}
    (hrun : (corpusSystem δ σ sha256).run {} calls = some (corpus, drafts)) :
    Traced corpus drafts := by
  have hinvariant := System.run_induction
    (P := fun corpus drafts => corpus.WF ∧ Traced corpus drafts)
    (fun corpus drafts call after new _ ⟨hwf, h⟩ hstep =>
      ⟨step_wf call new hwf hstep, step_traced h hwf hstep⟩)
    (show _ ∧ Traced _ [] from ⟨empty_wf, by constructor <;> simp⟩) hrun
  exact hinvariant.2

/-! ## Stale items -/

/-- The document stems from another content. -/
def Stale (drafts : List (Draft δ σ)) (content : String) (documentId : ℕ) : Prop :=
  ∃ e ∈ drafts, e.documentId = documentId ∧ e.loaded.content ≠ content

/-- Nothing stored under the source stems from another content. -/
structure OnlyFrom (corpus : Corpus δ σ) (drafts : List (Draft δ σ))
    (sourceUri content : String) : Prop where
  documents : ∀ d ∈ corpus.database.documents, d.sourceUri = sourceUri →
    ¬ Stale drafts content d.id
  chunks : ∀ d ∈ corpus.database.documents, d.sourceUri = sourceUri →
    ∀ c ∈ corpus.database.chunks, c.documentId = d.id → ¬ Stale drafts content c.documentId
  points : ∀ p ∈ corpus.points, p.payload.sourceUri = sourceUri →
    ¬ Stale drafts content p.payload.documentId

/-- No chunk row knows the point. -/
def Corpus.Orphan (corpus : Corpus δ σ) (p : Point δ σ) : Prop :=
  ∀ c ∈ corpus.database.chunks, c.pointId ≠ p.id

/-- What the call cannot replace is from the content it ingests already: the
document of the source where the call exits early, and the orphans of the source. -/
structure Replaceable (sha256 : String → String) (env : Collaborators δ σ)
    (loaded : LoadedDocument) (force : Bool) (corpus : Corpus δ σ) (drafts : List (Draft δ σ)) :
    Prop where
  document : ¬ Proceeds sha256 env loaded force corpus →
    ∀ d ∈ corpus.database.documents, d.sourceUri = loaded.sourceUri →
      ¬ Stale drafts loaded.content d.id
  orphans : ∀ p ∈ corpus.points, corpus.Orphan p → p.payload.sourceUri = loaded.sourceUri →
    ¬ Stale drafts loaded.content p.payload.documentId

theorem stale_append_iff {content : String} (hcontent : draft.loaded.content = content)
    (documentId : ℕ) :
    Stale (drafts ++ [draft]) content documentId ↔ Stale drafts content documentId := by
  constructor
  · rintro ⟨e, he, hid, hne⟩
    rcases List.mem_append.mp he with he | he
    · exact ⟨e, he, hid, hne⟩
    · rw [List.mem_singleton.mp he] at hne
      exact absurd hcontent hne
  · rintro ⟨e, he, hid, hne⟩
    exact ⟨e, List.mem_append_left _ he, hid, hne⟩

/-- A point that is not an orphan belongs to the document of its source. -/
theorem point_document (h : Traced corpus drafts) (hwf : corpus.WF) {p : Point δ σ}
    (hp : p ∈ corpus.points) (hrow : ¬ corpus.Orphan p) :
    ∃ d ∈ corpus.database.documents, d.sourceUri = p.payload.sourceUri ∧
      d.id = p.payload.documentId ∧
      ∃ c ∈ corpus.database.chunks, c.documentId = d.id ∧ c.pointId = p.id := by
  unfold Corpus.Orphan at hrow
  push Not at hrow
  obtain ⟨c, hc, hpoint⟩ := hrow
  have hdocument := h.rows p hp c hc hpoint
  obtain ⟨d, hd, hid⟩ := List.mem_map.mp (hwf.owned c hc)
  obtain ⟨e, he, heid, hesource⟩ := h.documents d hd
  obtain ⟨e', he', heid', hesource'⟩ := h.points p hp
  have hsame : e = e' := List.inj_on_of_nodup_map h.distinct he he'
    (by rw [heid, heid', hid, hdocument])
  refine ⟨d, hd, ?_, hid.trans hdocument, c, hc, hid.symm, hpoint⟩
  rw [← hesource, ← hesource', hsame]

variable {sha256 : String → String} {loaded : LoadedDocument} {force : Bool}

/-- A call that exits early keeps what is there. -/
theorem skipped_onlyFrom_iff (h : Traced corpus drafts) (hwf : corpus.WF)
    (hstops : ¬ Proceeds sha256 env loaded force corpus) :
    OnlyFrom corpus drafts loaded.sourceUri loaded.content ↔
      Replaceable sha256 env loaded force corpus drafts := by
  constructor
  · intro honly
    exact ⟨fun _ => honly.documents, fun p hp _ => honly.points p hp⟩
  · intro hclear
    have hdocuments := hclear.document hstops
    refine ⟨hdocuments, fun d hd hsource c _ hid => ?_, fun p hp hsource => ?_⟩
    · rw [hid]
      exact hdocuments d hd hsource
    · by_cases horphan : corpus.Orphan p
      · exact hclear.orphans p hp horphan hsource
      · obtain ⟨d, hd, hdsource, hdid, -⟩ := point_document h hwf hp horphan
        rw [← hdid]
        exact hdocuments d hd (hdsource.trans hsource)

/-- A call that commits replaces all but the orphans. -/
theorem committed_onlyFrom_iff {points : List (Point δ σ)} (h : Traced corpus drafts)
    (hwf : corpus.WF) (hproceeds : Proceeds sha256 env loaded force corpus)
    (hdraft : draft = draftOf sha256 env loaded corpus) (createdAt : Rat)
    (hpoints : List.Forall₂ draft.Indexes draft.chunks points) :
    OnlyFrom { corpus.mint draft with
        database := corpus.database.replaced draft createdAt
        points := corpus.kept draft ++ points } (drafts ++ [draft])
        loaded.sourceUri loaded.content ↔
      Replaceable sha256 env loaded force corpus drafts := by
  have hcontent : draft.loaded.content = loaded.content := by rw [hdraft]; rfl
  have hsourceUri : draft.loaded.sourceUri = loaded.sourceUri := by rw [hdraft]; rfl
  have hfresh : ¬ Stale (drafts ++ [draft]) loaded.content draft.documentId := by
    rw [stale_append_iff hcontent]
    rintro ⟨e, he, hid, -⟩
    have hlt := h.drafts_lt e he
    rw [hid, hdraft] at hlt
    exact Nat.lt_irrefl _ hlt
  constructor
  · intro honly
    refine ⟨fun hstops => absurd hproceeds hstops, fun p hp horphan hsource => ?_⟩
    have hkept : p ∈ corpus.kept draft := by
      apply mem_kept.mpr
      refine ⟨hp, fun hin => ?_⟩
      obtain ⟨c, hc, -, hpoint⟩ := (Database.mem_pointsOf _).mp hin
      exact horphan c hc hpoint
    rw [← stale_append_iff hcontent]
    exact honly.points p (List.mem_append_left _ hkept) hsource
  · intro hclear
    have hdocuments : ∀ d ∈ (corpus.database.replaced draft createdAt).documents,
        d.sourceUri = loaded.sourceUri → ¬ Stale (drafts ++ [draft]) loaded.content d.id := by
      intro d hd hsource
      rcases List.mem_append.mp hd with hd | hd
      · have hother := ((mem_without_doomed hwf.ids).mp hd).2.2
        exact absurd (hsource.trans hsourceUri.symm) hother
      · rw [List.mem_singleton.mp hd]
        exact hfresh
    refine ⟨hdocuments, fun d hd hsource c _ hid => ?_, fun p hp hsource => ?_⟩
    · rw [hid]
      exact hdocuments d hd hsource
    · rcases List.mem_append.mp hp with hp | hp
      · obtain ⟨hold, hstays⟩ := mem_kept.mp hp
        by_cases horphan : corpus.Orphan p
        · rw [stale_append_iff hcontent]
          exact hclear.orphans p hold horphan hsource
        · obtain ⟨d, hd, hdsource, -, c, hc, hcid, hpoint⟩ := point_document h hwf hold horphan
          have hdoomed : d.id ∈ corpus.database.doomed draft.docHash draft.loaded.sourceUri :=
            (Database.mem_doomed _).mpr
              ⟨d, hd, .inr (hdsource.trans (hsource.trans hsourceUri.symm)), rfl⟩
          exact absurd ((Database.mem_pointsOf _).mpr ⟨c, hc, hcid ▸ hdoomed, hpoint⟩) hstays
      · rw [(indexed_origin hpoints hp).1]
        exact hfresh

/-- After a call that ingests a content under a source without an error, what is
stored under the source stems from that content exactly when the call found
everything there replaceable. -/
theorem reingestion_replaces_iff (sha256 : String → String) (env : Collaborators δ σ)
    (call : IngestCall) (loaded : LoadedDocument)
    (calls : List (IngestCall × Collaborators δ σ)) (corpus after : Corpus δ σ)
    (drafts new : List (Draft δ σ)) (result : IngestResult)
    (hrun : (corpusSystem δ σ sha256).run {} calls = some (corpus, drafts))
    (hload : call.load env = .ok loaded)
    (hok : perform sha256 env call corpus = (.ok result, after, new)) :
    OnlyFrom after (drafts ++ new) loaded.sourceUri loaded.content ↔
      Replaceable sha256 env loaded call.force corpus drafts := by
  have hwf := reachable_wf hrun
  have htraced := reachable_traced hrun
  have hcases := ingest_cases sha256 env loaded call.force hwf
  simp only [perform, hload] at hok
  rw [hok] at hcases
  dsimp only at hcases
  cases hcases with
  | skipped result hstops =>
      rw [List.append_nil]
      exact skipped_onlyFrom_iff htraced hwf hstops
  | wrote r after hproceeds hwritten =>
      cases hwritten with
      | committed result points hpoints =>
          exact committed_onlyFrom_iff htraced hwf hproceeds rfl env.now hpoints

theorem reingestion_replaces_changed_source :
    ∃ corpus after drafts new result,
      (corpusSystem ℕ ℕ stubSha256).run {} [(ingestText "old" "s", stubCollaborators)] =
        some (corpus, drafts) ∧
      perform stubSha256 stubCollaborators (ingestText "new" "s") corpus = (.ok result, after, new) ∧
      (OnlyFrom after (drafts ++ new) "s" "new" ↔
        Replaceable stubSha256 stubCollaborators
          { content := "new", sourceUri := "s", docType := "text" } false corpus drafts) := by
  refine ⟨_, _, _, _, _, rfl, rfl, ?_⟩
  exact reingestion_replaces_iff stubSha256 stubCollaborators (ingestText "new" "s") _
    [(ingestText "old" "s", stubCollaborators)] _ _ _ _ _ rfl rfl rfl

/-- The new content of a source is already stored under another source: the call
exits as a duplicate, and the old content stays. -/
theorem reingestion_keeps_old_content :
    ∃ corpus after drafts new result,
      (corpusSystem ℕ ℕ stubSha256).run {}
        [(ingestText "old" "s", stubCollaborators), (ingestText "new" "t", stubCollaborators)] =
          some (corpus, drafts) ∧
      perform stubSha256 stubCollaborators (ingestText "new" "s") corpus = (.ok result, after, new) ∧
      result.reason = some "duplicate" ∧ ¬ OnlyFrom after (drafts ++ new) "s" "new" := by
  refine ⟨_, _, _, _, _, rfl, rfl, rfl, fun honly => ?_⟩
  refine honly.documents _ (List.mem_cons_self ..) rfl ⟨_, List.mem_cons_self .., rfl, ?_⟩
  decide

end Lour.Rag
