import Lour.Rag.Consistency
/-!
# What a failed ingest leaves behind

An exception anywhere in `_ingest` rolls the relational writes back.  Qdrant has
no part in that: an upsert that raises comes after the points of the previous
versions are gone, and a commit that raises comes after the new ones are there.
-/

namespace Lour.Rag

open Lour.Lib Lour.Lib.Python

variable {δ σ : Type} {env : Collaborators δ σ} {corpus after : Corpus δ σ} {draft : Draft δ σ}

/-- Chunk rows and points name the same ids. -/
def Agrees (corpus : Corpus δ σ) : Prop :=
  ∀ id, (∃ p ∈ corpus.points, p.id = id) ↔ ∃ c ∈ corpus.database.chunks, c.pointId = id

/-- The same rows and the same set of points. -/
def Unchanged (before after : Corpus δ σ) : Prop :=
  after.database = before.database ∧ ∀ p, p ∈ after.points ↔ p ∈ before.points

/-- No document is stored with this hash or this source. -/
def Unversioned (db : Database) (docHash sourceUri : String) : Prop :=
  ∀ d ∈ db.documents, d.docHash ≠ docHash ∧ d.sourceUri ≠ sourceUri

/-- The call that raises is not the commit, and it is the Qdrant upsert only
where there is no previous version. -/
def Harmless (sha256 : String → String) (loaded : LoadedDocument) (db : Database)
    (site : Site) : Prop :=
  site ≠ .commit ∧
    (site = .upsertPoints → Unversioned db (sha256 loaded.content) loaded.sourceUri)

/-- Where nothing failed so far the stores agree. -/
theorem agrees_of_faultless {sha256 : String → String} {drafts : List (Draft δ σ)}
    (calls : List (IngestCall × Collaborators δ σ))
    (hfaultless : ∀ call ∈ calls, ∀ site, call.2.raises site = false)
    (hrun : (corpusSystem δ σ sha256).run {} calls = some (corpus, drafts)) : Agrees corpus :=
  drafted_sameIds (run_drafted hfaultless hrun)

/-! ## The points that are gone or new -/

theorem mem_kept {p : Point δ σ} :
    p ∈ corpus.kept draft ↔ p ∈ corpus.points ∧ p.id ∉ corpus.database.pointsOf
      (corpus.database.doomed draft.docHash draft.loaded.sourceUri) := by
  simp [Corpus.kept, deletePoints]

theorem kept_of_unversioned
    (hnone : Unversioned corpus.database draft.docHash draft.loaded.sourceUri) :
    corpus.kept draft = corpus.points := by
  have hdoomed : corpus.database.doomed draft.docHash draft.loaded.sourceUri = [] := by
    rw [List.eq_nil_iff_forall_not_mem]
    intro id hid
    obtain ⟨d, hd, hversion, -⟩ := (Database.mem_doomed _).mp hid
    rcases hversion with heq | heq
    · exact (hnone d hd).1 heq
    · exact (hnone d hd).2 heq
  rw [Corpus.kept, hdoomed]
  simp [Database.pointsOf, deletePoints]

/-- Every document has a chunk. -/
theorem Corpus.WF.has_row (h : corpus.WF) {d : Document}
    (hd : d ∈ corpus.database.documents) :
    ∃ row ∈ corpus.database.chunks, row.documentId = d.id := by
  obtain ⟨n, hn, hindices⟩ := h.indices d hd
  have hlength := congrArg List.length hindices
  rw [List.length_map, List.length_range] at hlength
  have hpos : 0 < (corpus.database.chunks.filter fun c => c.documentId == d.id).length := by
    omega
  obtain ⟨row, hrow⟩ := List.exists_mem_of_length_pos hpos
  obtain ⟨hmem, hdoc⟩ := List.mem_filter.mp hrow
  exact ⟨row, hmem, by simpa using hdoc⟩

/-- Where rows and points agree it has a point. -/
theorem document_has_point (h : corpus.WF) (hagrees : Agrees corpus) {d : Document}
    (hd : d ∈ corpus.database.documents) :
    ∃ p ∈ corpus.points, ∃ c ∈ corpus.database.chunks, c.documentId = d.id ∧
      c.pointId = p.id := by
  obtain ⟨c, hc, hdoc⟩ := h.has_row hd
  obtain ⟨p, hp, hid⟩ := (hagrees c.pointId).mpr ⟨c, hc, rfl⟩
  exact ⟨p, hp, c, hc, hdoc, hid.symm⟩

theorem kept_same_iff (draft : Draft δ σ) (h : corpus.WF) (hagrees : Agrees corpus) :
    (∀ p, p ∈ corpus.kept draft ↔ p ∈ corpus.points) ↔
      Unversioned corpus.database draft.docHash draft.loaded.sourceUri := by
  constructor
  · intro hsame d hd
    obtain ⟨p, hp, c, hc, hdoc, hid⟩ := document_has_point h hagrees hd
    have hstays := (mem_kept.mp ((hsame p).mpr hp)).2
    have hspared : d.id ∉ corpus.database.doomed draft.docHash draft.loaded.sourceUri := by
      intro hdoomed
      apply hstays
      exact (Database.mem_pointsOf _).mpr ⟨c, hc, hdoc.symm ▸ hdoomed, hid⟩
    constructor
    · intro heq
      apply hspared
      exact (Database.mem_doomed _).mpr ⟨d, hd, .inl heq, rfl⟩
    · intro heq
      apply hspared
      exact (Database.mem_doomed _).mpr ⟨d, hd, .inr heq, rfl⟩
  · intro hnone p
    rw [kept_of_unversioned hnone]

/-- What an upsert before the failing commit stored is new to the collection. -/
theorem stored_not_mem (h : corpus.WF) (hid : draft.documentId = corpus.minted)
    (htexts : draft.texts ≠ []) {points : List (Point δ σ)}
    (hpoints : List.Forall₂ draft.Indexes draft.chunks points) :
    ∃ p ∈ points, p ∉ corpus.points := by
  have hlength : points.length = draft.texts.length := by
    rw [← hpoints.length_eq, Draft.chunks, List.length_map, List.length_zipIdx]
  have hpos : 0 < points.length := by
    rw [hlength]
    exact List.length_pos_iff.mpr htexts
  obtain ⟨p, hp⟩ := List.exists_mem_of_length_pos hpos
  refine ⟨p, hp, fun hold => ?_⟩
  have hnew := (indexed_lt hid hpoints p hp).1
  have hlt := h.points_lt p hold
  omega

/-! ## Failed ingests -/

variable {sha256 : String → String} {loaded : LoadedDocument} {force : Bool}

/-- PostgreSQL is as it was, whatever failed. -/
theorem failed_database {e : Failure} {new : List (Draft δ σ)} (h : corpus.WF)
    (hfail : ingest sha256 env loaded force corpus = (.error e, after, new)) :
    after.database = corpus.database := by
  have hcases := ingest_cases sha256 env loaded force h
  rw [hfail] at hcases
  dsimp only at hcases
  cases hcases with
  | failed e hupsert hcommit => rfl
  | wrote r after hproceeds hwritten => cases hwritten <;> rfl

/-- After a call raised inside `_ingest` both stores are what they were exactly
when it was not the commit, nor the upsert of a document with a previous version. -/
theorem failed_ingest_unchanged_iff (sha256 : String → String) (env : Collaborators δ σ)
    (loaded : LoadedDocument) (force : Bool) (calls : List (IngestCall × Collaborators δ σ))
    (corpus after : Corpus δ σ) (drafts new : List (Draft δ σ)) (site : Site)
    (hrun : (corpusSystem δ σ sha256).run {} calls = some (corpus, drafts))
    (hagrees : Agrees corpus)
    (hfail : ingest sha256 env loaded force corpus = (.error (.raised site), after, new)) :
    Unchanged corpus after ↔ Harmless sha256 loaded corpus.database site := by
  have hwf := reachable_wf hrun
  have hdatabase := failed_database hwf hfail
  have hcases := ingest_cases sha256 env loaded force hwf
  rw [hfail] at hcases
  dsimp only at hcases
  have hearly : site ≠ .commit → site ≠ .upsertPoints → after.points = corpus.points →
      (Unchanged corpus after ↔ Harmless sha256 loaded corpus.database site) := by
    intro hcommit hupsert hpoints
    constructor
    · intro _
      exact ⟨hcommit, fun heq => absurd heq hupsert⟩
    · intro _
      exact ⟨hdatabase, fun p => by rw [hpoints]⟩
  cases hcases with
  | failed e hupsert hcommit =>
      exact hearly (fun heq => hcommit (heq ▸ rfl)) (fun heq => hupsert (heq ▸ rfl)) rfl
  | wrote r after hproceeds hwritten =>
      cases hwritten with
      | rolledBack e hupsert hcommit =>
          exact hearly (fun heq => hcommit (heq ▸ rfl)) (fun heq => hupsert (heq ▸ rfl)) rfl
      | halfway hraises =>
          have hsame := kept_same_iff (draftOf sha256 env loaded corpus) hwf hagrees
          constructor
          · intro hunchanged
            exact ⟨by decide, fun _ => hsame.mp hunchanged.2⟩
          · intro hharmless
            exact ⟨hdatabase, hsame.mpr (hharmless.2 rfl)⟩
      | uncommitted hraises points hpoints =>
          -- the upsert went through, and nothing takes its points back
          obtain ⟨p, hp, hnew⟩ := stored_not_mem hwf rfl hproceeds.2 hpoints
          constructor
          · intro hunchanged
            have hstored :=
              List.mem_append_right (corpus.kept (draftOf sha256 env loaded corpus)) hp
            exact absurd ((hunchanged.2 p).mp hstored) hnew
          · intro hharmless
            exact absurd rfl hharmless.1

/-- The calls of one site raise. -/
def failingAt (site : Site) : Collaborators ℕ ℕ :=
  stubCollaborators fun s => decide (s = site)

/-- Of a source that comes to a corpus with another one nothing is left behind. -/
theorem failed_ingest_unchanged_first_upsert :
    ∃ corpus drafts after new,
      (corpusSystem ℕ ℕ stubSha256).run {} [(ingestText "old" "s", stubCollaborators)] =
        some (corpus, drafts) ∧
      corpus.points.map Point.id = [1] ∧
      ingest stubSha256 (failingAt .upsertPoints)
        { content := "new", sourceUri := "t", docType := "text" } false corpus =
          (.error (.raised .upsertPoints), after, new) ∧
      Unchanged corpus after := by
  refine ⟨_, _, _, _, rfl, rfl, rfl, ?_⟩
  refine (failed_ingest_unchanged_iff stubSha256 (failingAt .upsertPoints)
    { content := "new", sourceUri := "t", docType := "text" } false
    [(ingestText "old" "s", stubCollaborators)] _ _ _ _ .upsertPoints rfl ?_ rfl).mpr ?_
  · refine agrees_of_faultless [(ingestText "old" "s", stubCollaborators)]
      (fun call hcall site => ?_) rfl
    rw [List.mem_singleton.mp hcall]
    rfl
  · refine ⟨by decide, fun _ d hd => ?_⟩
    rw [List.mem_singleton.mp hd]
    exact ⟨by decide, by decide⟩

/-- A changed source loses its points when the upsert of the new version raises. -/
theorem failed_ingest_loses_points :
    ∃ corpus drafts after new,
      (corpusSystem ℕ ℕ stubSha256).run {} [(ingestText "old" "s", stubCollaborators)] =
        some (corpus, drafts) ∧
      Agrees corpus ∧
      ingest stubSha256 (failingAt .upsertPoints)
        { content := "new", sourceUri := "s", docType := "text" } false corpus =
          (.error (.raised .upsertPoints), after, new) ∧
      corpus.points.map Point.id = [1] ∧ after.points = [] ∧
      after.database.chunks.map Chunk.pointId = [1] ∧ ¬ Unchanged corpus after := by
  refine ⟨_, _, _, _, rfl, ?_, rfl, rfl, rfl, rfl, ?_⟩
  · refine agrees_of_faultless [(ingestText "old" "s", stubCollaborators)]
      (fun call hcall site => ?_) rfl
    rw [List.mem_singleton.mp hcall]
    rfl
  · rintro ⟨-, hpoints⟩
    exact List.not_mem_nil ((hpoints _).mpr (List.mem_cons_self ..))

end Lour.Rag
