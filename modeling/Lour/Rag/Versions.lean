import Lour.Rag.Provenance
import Lour.Rag.UnitOfWork
/-!
# Versions of one source

Of calls that ingest different contents under one source at the same time, the one
that commits last replaces what the others wrote, provided that it looked the source
up after they had committed.
-/

namespace Lour.Rag

open Lour.Lib Lour.Lib.Python

variable {δ σ : Type} {sha256 : String → String} {env : Collaborators δ σ}
  {loaded : LoadedDocument} {force : Bool} {corpus corpus' base initial : Corpus δ σ}
  {draft : Draft δ σ} {uow : UnitOfWork δ σ} {sourceUri : String} {hashes : List String}

/-! ## One source in the two stores -/

/-- The point is one of the document's. -/
def Corpus.Owns (corpus : Corpus δ σ) (d : Document) (p : Point δ σ) : Prop :=
  ∃ row ∈ corpus.database.chunks, row.documentId = d.id ∧ Mirrors row p

/-- Qdrant holds for the source the points of its documents and no others. -/
structure Aligned (corpus : Corpus δ σ) (sourceUri : String) : Prop where
  owned : ∀ p ∈ corpus.points, p.payload.sourceUri = sourceUri ↔
    ∃ d ∈ corpus.database.documents, d.sourceUri = sourceUri ∧ corpus.Owns d p
  indexed : ∀ d ∈ corpus.database.documents, d.sourceUri = sourceUri → corpus.Indexed d

/-- One of the contents is stored under the source. -/
def Held (corpus : Corpus δ σ) (sourceUri : String) (hashes : List String) : Prop :=
  ∃ d ∈ corpus.database.documents, d.sourceUri = sourceUri ∧ d.docHash ∈ hashes

/-- The source has one document, with one of the contents, and its points are those
of the source. -/
def OneVersion (corpus : Corpus δ σ) (sourceUri : String) (hashes : List String) : Prop :=
  ∃ d, (corpus.database.documents.filter fun e => e.sourceUri == sourceUri) = [d] ∧
    d.docHash ∈ hashes ∧ corpus.Indexed d ∧
    ∀ p ∈ corpus.points, p.payload.sourceUri = sourceUri ↔ corpus.Owns d p

theorem Held.oneVersion (h : Held corpus sourceUri hashes) (hwf : corpus.WF)
    (haligned : Aligned corpus sourceUri) : OneVersion corpus sourceUri hashes := by
  obtain ⟨d, hd, hsource, hhash⟩ := h
  refine ⟨d, ?_, hhash, haligned.indexed d hd hsource, fun p hp => ?_⟩
  · rw [← hsource]
    exact filter_eq_singleton hwf.sources hd
  · rw [haligned.owned p hp]
    constructor
    · rintro ⟨e, he, hesource, howns⟩
      have hsame : e = d :=
        List.inj_on_of_nodup_map hwf.sources he hd (hesource.trans hsource.symm)
      rwa [hsame] at howns
    · exact fun howns => ⟨d, hd, hsource, howns⟩

/-- Where no collaborator has failed so far every source is aligned. -/
theorem aligned_of_faultless {drafts : List (Draft δ σ)}
    (calls : List (IngestCall × Collaborators δ σ))
    (hfaultless : ∀ call ∈ calls, ∀ site, call.2.raises site = false)
    (hrun : (corpusSystem δ σ sha256).run {} calls = some (corpus, drafts)) (sourceUri : String) :
    Aligned corpus sourceUri := by
  have hwf := reachable_wf hrun
  have htraced := reachable_traced hrun
  have hown := run_drafted hfaultless hrun
  refine ⟨fun p hp => ⟨?_, ?_⟩, fun d _ _ row hrow _ => ?_⟩
  · rintro rfl
    obtain ⟨row, hrow, hid, hdocument, hindex, hcontent, -⟩ := forall₂_partner hown hp
    have hknown : ¬ corpus.Orphan p := fun horphan => horphan row hrow hid.symm
    obtain ⟨d, hd, hsource, hdid, -⟩ := point_document htraced hwf hp hknown
    exact ⟨d, hd, hsource, row, hrow, hdocument.symm.trans hdid.symm,
      hid, hdocument, hindex, hcontent⟩
  · rintro ⟨d, hd, hsource, row, hrow, hdoc, hid, hdocument, -⟩
    have hknown : ¬ corpus.Orphan p := fun horphan => horphan row hrow hid.symm
    obtain ⟨e, he, hesource, heid, -⟩ := point_document htraced hwf hp hknown
    have hsame : e = d :=
      List.inj_on_of_nodup_map hwf.ids he hd (heid.trans (hdocument.trans hdoc))
    rw [← hesource, hsame, hsource]
  · obtain ⟨p, hp, hid, hdocument, hindex, hcontent, -⟩ := forall₂_partner hown.flip hrow
    exact ⟨p, hp, hid, hdocument, hindex, hcontent⟩

/-- A commit under the source leaves it aligned. -/
theorem committed_aligned (h : base.WF) (hid : draft.documentId = base.minted)
    (htexts : draft.texts ≠ []) {points : List (Point δ σ)}
    (hpoints : List.Forall₂ draft.Indexes draft.chunks points)
    (haligned : Aligned base draft.loaded.sourceUri) (createdAt : Rat) :
    Aligned (base.committed draft createdAt points) draft.loaded.sourceUri := by
  have hwf := committed_wf createdAt h hid htexts hpoints
  have hlast : draft.document createdAt ∈
      (base.committed draft createdAt points).database.documents :=
    (mem_committed createdAt h).mpr (.inr rfl)
  have honly : ∀ d ∈ (base.committed draft createdAt points).database.documents,
      d.sourceUri = draft.loaded.sourceUri → d = draft.document createdAt := by
    intro d hd hsource
    exact List.inj_on_of_nodup_map hwf.sources hd hlast hsource
  have hstored := committed_stored createdAt h hid htexts hpoints
  refine ⟨fun p hp => ⟨?_, ?_⟩, fun d hd hsource => ?_⟩
  · intro hsource
    refine ⟨_, hlast, rfl, ?_⟩
    rcases List.mem_append.mp hp with hp | hp
    · -- the points of the source were the doomed documents' own
      obtain ⟨hold, hstays⟩ := mem_kept.mp hp
      obtain ⟨d, hd, hdsource, row, hrow, hdoc, hmirrors⟩ := (haligned.owned p hold).mp hsource
      refine absurd ((Database.mem_pointsOf _).mpr ⟨row, hrow, ?_, hmirrors.1.symm⟩) hstays
      rw [hdoc]
      exact (Database.mem_doomed _).mpr ⟨d, hd, .inr hdsource, rfl⟩
    · obtain ⟨row, hrow, dense, sparse, -, -, rfl⟩ := forall₂_partner hpoints hp
      exact ⟨row, List.mem_append_right _ hrow, (draft_chunk_mem hrow).1, rfl,
        (draft_chunk_mem hrow).1.symm, rfl, rfl⟩
  · rintro ⟨d, hd, hsource, row, hrow, hdoc, hmirrors⟩
    rw [honly d hd hsource] at hdoc
    have hnew : row ∈ draft.chunks := by
      rw [← replaced_rows_new h hid createdAt]
      exact List.mem_filter.mpr ⟨hrow, beq_iff_eq.mpr hdoc⟩
    rcases List.mem_append.mp hp with hp | hp
    · have hlt := h.points_lt p (mem_kept.mp hp).1
      have hpoint := (draft_chunk_mem hnew).2.1
      have hsame := hmirrors.1
      omega
    · exact (indexed_origin hpoints hp).2
  · obtain ⟨e, he, hhash, -, hindexed⟩ := hstored
    have hsame : e = draft.document createdAt :=
      List.inj_on_of_nodup_map hwf.hashes he hlast hhash
    rw [honly d hd hsource, ← hsame]
    exact hindexed

/-! ## What a call holds while it is under way -/

structure UnitOfWork.Drafts (uow : UnitOfWork δ σ) (docHash : String) (loaded : LoadedDocument) :
    Prop where
  docHash : uow.draft.docHash = docHash
  loaded : uow.draft.loaded = loaded
  texts : uow.draft.texts ≠ []

/-- The lookup by hash, which may be out of date: it has missed nothing, and what it
has found is a version of the same content or gone. -/
structure Recalls (base : Corpus δ σ) (docHash : String) (byHash : Option Document) : Prop where
  found : ∀ d ∈ base.database.documents, d.docHash = docHash → byHash = some d
  known : ∀ d, byHash = some d → d.id < base.minted ∧
    ∀ e ∈ base.database.documents, e.id = d.id → e.docHash = docHash

/-- The call has deleted some of the documents it replaces and will delete the others. -/
structure UnitOfWork.Deletes (uow : UnitOfWork δ σ) (base : Corpus δ σ)
    (toDelete listed : List ℕ) : Prop where
  staged : uow.staged = {}
  points : uow.points = []
  doomed : ∀ id ∈ base.database.documents.map Document.id, id ∈ uow.deleted ++ toDelete ↔
    id ∈ base.database.doomed uow.draft.docHash uow.draft.loaded.sourceUri
  old : ∀ id, id ∈ uow.oldPointIds ↔ id ∈ base.database.pointsOf (uow.deleted ++ listed)

/-- The call has deleted the documents it replaces and is adding its own. -/
structure UnitOfWork.Replaces (uow : UnitOfWork δ σ) (base : Corpus δ σ) (createdAt : Rat)
    (chunks : List Chunk) : Prop where
  minted : uow.draft.documentId = base.minted
  documents : uow.staged.documents = [uow.draft.document createdAt]
  chunks : uow.draft.chunks = uow.staged.chunks ++ chunks
  points : List.Forall₂ uow.draft.Indexes uow.staged.chunks uow.points
  doomed : ∀ id ∈ base.database.documents.map Document.id, id ∈ uow.deleted ↔
    id ∈ base.database.doomed uow.draft.docHash uow.draft.loaded.sourceUri
  old : ∀ id, id ∈ uow.oldPointIds ↔ id ∈ base.database.pointsOf
    (base.database.doomed uow.draft.docHash uow.draft.loaded.sourceUri)

/-- Of a database without rows that belong to no document. -/
theorem without_congr_owned (h : base.WF) {ids ids' : List ℕ}
    (hids : ∀ id ∈ base.database.documents.map Document.id, id ∈ ids ↔ id ∈ ids') :
    base.database.without ids = base.database.without ids' := by
  simp only [Database.without, Database.mk.injEq]
  constructor
  · apply List.filter_congr
    intro d hd
    rw [decide_eq_decide, not_iff_not]
    exact hids d.id (List.mem_map_of_mem hd)
  · apply List.filter_congr
    intro c hc
    rw [decide_eq_decide, not_iff_not]
    exact hids c.documentId (h.owned c hc)

theorem pointsOf_congr_owned (h : base.WF) {ids ids' : List ℕ}
    (hids : ∀ id ∈ base.database.documents.map Document.id, id ∈ ids ↔ id ∈ ids') (x : ℕ) :
    x ∈ base.database.pointsOf ids ↔ x ∈ base.database.pointsOf ids' := by
  rw [Database.mem_pointsOf, Database.mem_pointsOf]
  constructor
  · rintro ⟨c, hc, hin, hx⟩
    exact ⟨c, hc, (hids _ (h.owned c hc)).mp hin, hx⟩
  · rintro ⟨c, hc, hin, hx⟩
    exact ⟨c, hc, (hids _ (h.owned c hc)).mpr hin, hx⟩

/-- The two lookups together find the documents to replace. -/
theorem Recalls.doomed (h : base.WF) {docHash : String} {byHash : Option Document}
    (hrecalls : Recalls base docHash byHash) (id : ℕ)
    (hid : id ∈ base.database.documents.map Document.id) :
    id ∈ (toDelete byHash (base.database.getBySource sourceUri)).map Document.id ↔
      id ∈ base.database.doomed docHash sourceUri := by
  obtain ⟨d, hd, rfl⟩ := List.mem_map.mp hid
  rw [Database.mem_doomed]
  simp only [toDelete, List.map_append, List.mem_append, List.mem_map, Option.mem_toList,
    Option.filter_eq_some_iff, h.getBySource_iff]
  constructor
  · rintro (⟨e, he, heid⟩ | ⟨e, ⟨⟨he, hsource⟩, -⟩, heid⟩)
    · exact ⟨d, hd, .inl ((hrecalls.known e he).2 d hd heid.symm), rfl⟩
    · exact ⟨e, he, .inr hsource, heid⟩
  · rintro ⟨e, he, hhash | hsource, heid⟩
    · exact .inl ⟨e, hrecalls.found e he hhash, heid⟩
    · by_cases hseen : ∃ f, byHash = some f ∧ f.id = e.id
      · obtain ⟨f, hf, hfid⟩ := hseen
        exact .inl ⟨f, hf, hfid.trans heid⟩
      · refine .inr ⟨e, ⟨⟨he, hsource⟩, ?_⟩, heid⟩
        cases hbyHash : byHash with
        | none => rfl
        | some f =>
            have hne : f.id ≠ e.id := fun hfid => hseen ⟨f, hbyHash, hfid⟩
            simpa using hne

/-- The corpus while the call is at the phase, from the one it found when it looked
the source up; `done` is what it leaves to be said when it returns. -/
def IngestPhase.Sound (docHash : String) (loaded : LoadedDocument) (createdAt : Rat)
    (done : Prop) (base corpus : Corpus δ σ) : IngestPhase δ σ → Prop
  | .lookup | .prepare => True
  | .getByHash uow => uow.Drafts docHash loaded ∧ uow = { draft := uow.draft }
  | .getBySource uow byHash =>
      uow.Drafts docHash loaded ∧ uow = { draft := uow.draft } ∧ Recalls base docHash byHash
  | .listPointIds uow toDelete =>
      uow.Drafts docHash loaded ∧ uow.Deletes base (toDelete.map Document.id) [] ∧ corpus = base
  | .deleteDocument uow doc toDelete =>
      uow.Drafts docHash loaded ∧
        uow.Deletes base (doc.id :: toDelete.map Document.id) [doc.id] ∧ corpus = base
  | .addDocument uow => uow.Drafts docHash loaded ∧ uow.Deletes base [] [] ∧ corpus = base
  | .addChunk uow chunks =>
      uow.Drafts docHash loaded ∧ uow.Replaces base createdAt chunks ∧
        corpus = base.mint uow.draft
  | .deletePoints uow =>
      uow.Drafts docHash loaded ∧ uow.Replaces base createdAt [] ∧ corpus = base.mint uow.draft
  | .upsertPoints uow =>
      uow.Drafts docHash loaded ∧ uow.Replaces base createdAt [] ∧
        corpus = { base.mint uow.draft with points := base.kept uow.draft }
  | .commit uow =>
      uow.Drafts docHash loaded ∧ uow.Replaces base createdAt [] ∧
        corpus = { base.mint uow.draft with points := base.kept uow.draft ++ uow.points }
  | .returned _ => done
  | .raised _ => False


/-! ## One statement -/

theorem UnitOfWork.Deletes.start (h : base.WF) {docHash : String} {byHash : Option Document}
    (hdrafts : uow.Drafts docHash loaded) (huow : uow = { draft := uow.draft })
    (hrecalls : Recalls base docHash byHash) :
    uow.Deletes base
      ((toDelete byHash (base.database.getBySource loaded.sourceUri)).map Document.id) [] where
  staged := by rw [huow]
  points := by rw [huow]
  doomed id hid := by
    rw [huow, List.nil_append, hdrafts.docHash, hdrafts.loaded]
    exact hrecalls.doomed h id hid
  old id := by
    rw [huow]
    simp [Database.pointsOf]

theorem UnitOfWork.Deletes.listed {doc : Document} {todo : List ℕ}
    (h : uow.Deletes base (doc.id :: todo) []) :
    UnitOfWork.Deletes
      { uow with
        oldPointIds := uow.oldPointIds ++ (uow.publish base.database).listPointIds doc.id }
      base (doc.id :: todo) [doc.id] where
  staged := h.staged
  points := h.points
  doomed := h.doomed
  old id := by
    have hlist : id ∈ (uow.publish base.database).listPointIds doc.id ↔
        ∃ c ∈ base.database.chunks, c.documentId = doc.id ∧ c.documentId ∉ uow.deleted ∧
          c.pointId = id := by
      unfold UnitOfWork.publish
      rw [h.staged]
      simp only [Database.listPointIds, Database.without, List.append_nil, List.mem_map,
        List.mem_filter, decide_eq_true_eq, beq_iff_eq]
      constructor
      · rintro ⟨c, ⟨⟨hc, hnot⟩, heq⟩, hx⟩
        exact ⟨c, hc, heq, hnot, hx⟩
      · rintro ⟨c, hc, heq, hnot, hx⟩
        exact ⟨c, ⟨⟨hc, hnot⟩, heq⟩, hx⟩
    have hold := h.old id
    rw [List.append_nil] at hold
    rw [List.mem_append, hold, hlist, Database.mem_pointsOf_concat _]

theorem UnitOfWork.Deletes.deleted (h : base.WF) {doc : Document} {todo found : List ℕ}
    (hdeletes : uow.Deletes base (doc.id :: todo) [doc.id])
    (hfound : ∀ id, id ∈ found ↔ id ∈ base.database.documents.map Document.id ∧ id = doc.id) :
    UnitOfWork.Deletes { uow with deleted := uow.deleted ++ found } base todo [] where
  staged := hdeletes.staged
  points := hdeletes.points
  doomed id hid := by
    rw [← hdeletes.doomed id hid]
    simp only [List.mem_append, List.mem_cons, hfound]
    constructor
    · rintro ((hin | ⟨-, hdoc⟩) | hin)
      · exact .inl hin
      · exact .inr (.inl hdoc)
      · exact .inr (.inr hin)
    · rintro (hin | hdoc | hin)
      · exact .inl (.inl hin)
      · exact .inl (.inr ⟨hid, hdoc⟩)
      · exact .inr hin
  old id := by
    rw [hdeletes.old id, List.append_nil]
    apply pointsOf_congr_owned h
    intro x hx
    rw [List.mem_append, List.mem_append, hfound, List.mem_singleton]
    exact or_congr_right ⟨fun hdoc => ⟨hx, hdoc⟩, fun hin => hin.2⟩

theorem UnitOfWork.Deletes.added (h : base.WF) (hdeletes : uow.Deletes base [] [])
    (hdraft : draft = { uow.draft with documentId := base.minted }) (createdAt : Rat) :
    UnitOfWork.Replaces { uow with draft, staged := { documents := [draft.document createdAt] } }
      base createdAt draft.chunks := by
  subst hdraft
  have hdoomed := hdeletes.doomed
  have hold := hdeletes.old
  simp only [List.append_nil] at hdoomed hold
  refine ⟨rfl, rfl, rfl, ?_, hdoomed, fun id => ?_⟩
  · rw [hdeletes.points]
    exact .nil
  · rw [hold id]
    exact pointsOf_congr_owned h hdoomed id

theorem UnitOfWork.Replaces.chunk {createdAt : Rat} {chunk : Chunk} {rest : List Chunk}
    {point : Point δ σ} (h : uow.Replaces base createdAt (chunk :: rest))
    (hindexes : uow.draft.Indexes chunk point) :
    UnitOfWork.Replaces
      { uow with
        staged := { uow.staged with chunks := uow.staged.chunks ++ [chunk] }
        points := uow.points ++ [point] }
      base createdAt rest where
  minted := h.minted
  documents := h.documents
  chunks := by rw [h.chunks, List.append_assoc, List.singleton_append]
  points := List.rel_append h.points (.cons hindexes .nil)
  doomed := h.doomed
  old := h.old

section Replaces

variable {createdAt : Rat} (h : base.WF) (hreplaces : uow.Replaces base createdAt [])

include hreplaces

theorem UnitOfWork.Replaces.indexes :
    List.Forall₂ uow.draft.Indexes uow.draft.chunks uow.points := by
  have hchunks := hreplaces.chunks
  rw [List.append_nil] at hchunks
  rw [hchunks]
  exact hreplaces.points

theorem UnitOfWork.Replaces.kept :
    deletePoints uow.oldPointIds base.points = base.kept uow.draft := by
  simp only [Corpus.kept, deletePoints, hreplaces.old]

include h

theorem UnitOfWork.Replaces.stored :
    upsertPoints (base.kept uow.draft) uow.points = base.kept uow.draft ++ uow.points :=
  upsertPoints_kept h hreplaces.minted hreplaces.indexes

theorem UnitOfWork.Replaces.publish :
    uow.publish base.database = base.database.replaced uow.draft createdAt := by
  have hchunks := hreplaces.chunks
  rw [List.append_nil] at hchunks
  rw [UnitOfWork.publish, without_congr_owned h hreplaces.doomed, hreplaces.documents, ← hchunks]
  rfl

end Replaces

/-- The call has looked the source up and not committed yet. -/
def IngestPhase.writing : IngestPhase δ σ → Bool
  | .listPointIds .. | .deleteDocument .. | .addDocument .. | .addChunk .. | .deletePoints ..
  | .upsertPoints .. | .commit .. => true
  | _ => false

/-- The call is about to look the source up. -/
def IngestPhase.looksUp : IngestPhase δ σ → Bool
  | .getBySource .. => true
  | _ => false

/-- The corpus is what the draft makes of the base. -/
def Commits (docHash : String) (loaded : LoadedDocument) (createdAt : Rat)
    (base corpus : Corpus δ σ) : Prop :=
  ∃ (draft : Draft δ σ) (points : List (Point δ σ)), draft.docHash = docHash ∧
    draft.loaded = loaded ∧ draft.texts ≠ [] ∧ draft.documentId = base.minted ∧
    List.Forall₂ draft.Indexes draft.chunks points ∧
    corpus = base.committed draft createdAt points

section Step

variable {phase phase' : IngestPhase δ σ} {docHash : String} {createdAt : Rat} {done : Prop}

theorem IngestPhase.Sound.database (h : phase.Sound docHash loaded createdAt done base corpus)
    (hwriting : phase.writing = true) : corpus.database = base.database := by
  cases phase with
  | listPointIds => rw [h.2.2]
  | deleteDocument => rw [h.2.2]
  | addDocument => rw [h.2.2]
  | addChunk => rw [h.2.2, Corpus.mint]
  | deletePoints => rw [h.2.2, Corpus.mint]
  | upsertPoints => rw [h.2.2, Corpus.mint]
  | commit => rw [h.2.2, Corpus.mint]
  | _ => cases hwriting

/-- Only a call that is writing says what the corpus is. -/
theorem IngestPhase.Sound.elsewhere (h : phase.Sound docHash loaded createdAt done base corpus)
    (hidle : phase.writing = false) :
    phase.Sound docHash loaded createdAt done base corpus' := by
  cases phase with
  | lookup => exact h
  | prepare => exact h
  | getByHash => exact h
  | getBySource => exact h
  | returned => exact h
  | raised => exact h
  | _ => cases hidle

/-- A statement of a call that looks the source up only where no other call is writing
is sound again, or it is the commit. -/
theorem Advances.sound (hwf : base.WF) (hdatabase : corpus.database = base.database)
    (halone : phase.looksUp = true → corpus = base)
    (hskips : ¬ Proceeds sha256 env loaded force base → done)
    (hadvances : Advances sha256 env loaded force corpus phase corpus' phase')
    (hgoes : ∀ e, phase' ≠ .raised e)
    (hsound : phase.Sound (sha256 loaded.content) loaded env.now done base corpus) :
    (phase'.Sound (sha256 loaded.content) loaded env.now done base corpus' ∧
        (phase.writing = false → corpus' = corpus) ∧
        (phase.writing = true → phase'.writing = true) ∧
        (phase'.writing = true → phase.writing = true ∨ phase.looksUp = true)) ∨
      (phase.writing = true ∧ (∃ result, phase' = .returned result) ∧
        Commits (sha256 loaded.content) loaded env.now base corpus') := by
  cases hadvances with
  | raises => exact absurd rfl (hgoes _)
  | duplicate existing result hfound =>
      refine .inl ⟨hskips ?_, fun _ => rfl, id, .inl⟩
      rw [hdatabase] at hfound
      intro hproceeds
      cases (duplicate_ok hwf hfound).mpr hproceeds.1
  | fresh => exact .inl ⟨trivial, fun _ => rfl, id, .inl⟩
  | blank result hblank =>
      exact .inl ⟨hskips fun hproceeds => hproceeds.2 hblank, fun _ => rfl, id, .inl⟩
  | prepared draft hdocHash hloaded htexts =>
      exact .inl ⟨⟨⟨hdocHash, hloaded, htexts⟩, rfl⟩, fun _ => rfl, id, .inl⟩
  | byHash uow =>
      obtain ⟨hdrafts, huow⟩ := hsound
      refine .inl ⟨⟨hdrafts, huow, ?_, ?_⟩, fun _ => rfl, id, .inl⟩
      · intro d hd hhash
        rw [hdatabase]
        exact hwf.getByHash_iff.mpr ⟨hd, hhash⟩
      · intro d hd
        rw [hdatabase] at hd
        obtain ⟨hmem, hhash⟩ := hwf.getByHash_iff.mp hd
        refine ⟨hwf.documents_lt d hmem, fun e he heid => ?_⟩
        rw [List.inj_on_of_nodup_map hwf.ids he hmem heid, hhash]
  | bySource uow byHash =>
      obtain ⟨hdrafts, huow, hrecalls⟩ := hsound
      have hbase := halone rfl
      subst hbase
      exact .inl ⟨⟨hdrafts, .start hwf hdrafts huow hrecalls, rfl⟩, fun _ => rfl,
        fun _ => rfl, fun _ => .inr rfl⟩
  | listed uow doc rest =>
      obtain ⟨⟨hdocHash, hloaded, htexts⟩, hdeletes, rfl⟩ := hsound
      exact .inl ⟨⟨⟨hdocHash, hloaded, htexts⟩, hdeletes.listed, rfl⟩, fun _ => rfl,
        fun _ => rfl, fun _ => .inl rfl⟩
  | allListed uow =>
      exact .inl ⟨hsound, fun _ => rfl, fun _ => rfl, fun _ => .inl rfl⟩
  | deleted uow doc rest found hfound =>
      obtain ⟨⟨hdocHash, hloaded, htexts⟩, hdeletes, rfl⟩ := hsound
      exact .inl ⟨⟨⟨hdocHash, hloaded, htexts⟩, hdeletes.deleted hwf hfound, rfl⟩, fun _ => rfl,
        fun _ => rfl, fun _ => .inl rfl⟩
  | added uow draft hdraft =>
      obtain ⟨⟨hdocHash, hloaded, htexts⟩, hdeletes, rfl⟩ := hsound
      refine .inl ⟨⟨?_, hdeletes.added hwf hdraft env.now, rfl⟩, fun hidle => ?_,
        fun _ => rfl, fun _ => .inl rfl⟩
      · rw [hdraft]
        exact ⟨hdocHash, hloaded, htexts⟩
      · cases hidle
  | chunk uow chunk rest point hindexes =>
      obtain ⟨⟨hdocHash, hloaded, htexts⟩, hreplaces, hcorpus⟩ := hsound
      exact .inl ⟨⟨⟨hdocHash, hloaded, htexts⟩, hreplaces.chunk hindexes, hcorpus⟩,
        fun _ => rfl, fun _ => rfl, fun _ => .inl rfl⟩
  | allAdded uow =>
      exact .inl ⟨hsound, fun _ => rfl, fun _ => rfl, fun _ => .inl rfl⟩
  | pointsDeleted uow =>
      obtain ⟨hdrafts, hreplaces, rfl⟩ := hsound
      refine .inl ⟨⟨hdrafts, hreplaces, ?_⟩, fun hidle => ?_, fun _ => rfl, fun _ => .inl rfl⟩
      · rw [← hreplaces.kept]
        rfl
      · cases hidle
  | upserted uow =>
      obtain ⟨hdrafts, hreplaces, rfl⟩ := hsound
      refine .inl ⟨⟨hdrafts, hreplaces, ?_⟩, fun hidle => ?_, fun _ => rfl, fun _ => .inl rfl⟩
      · rw [← hreplaces.stored hwf]
      · cases hidle
  | committed uow result =>
      obtain ⟨hdrafts, hreplaces, rfl⟩ := hsound
      refine .inr ⟨rfl, ⟨result, rfl⟩, uow.draft, uow.points, hdrafts.docHash, hdrafts.loaded,
        hdrafts.texts, hreplaces.minted, hreplaces.indexes, ?_⟩
      have hpublish := hreplaces.publish hwf
      rw [Corpus.committed, ← hpublish]
      rfl

/-- A commit of another content is nothing that a call which is not writing relies on. -/
theorem IngestPhase.Sound.committed (hwf : base.WF) (hid : draft.documentId = base.minted)
    (hother : docHash ≠ draft.docHash) {done' : Prop} (hdone : done → done')
    {points : List (Point δ σ)} {now : Rat}
    (h : phase.Sound docHash loaded createdAt done base corpus) (hidle : phase.writing = false) :
    phase.Sound docHash loaded createdAt done' (base.committed draft now points) corpus' := by
  cases phase with
  | lookup => trivial
  | prepare => trivial
  | getByHash uow => exact h
  | getBySource uow byHash =>
      obtain ⟨hdrafts, huow, hrecalls⟩ := h
      refine ⟨hdrafts, huow, fun d hd hhash => ?_, fun d hd => ?_⟩
      · rcases (mem_committed now hwf).mp hd with ⟨hmem, -⟩ | rfl
        · exact hrecalls.found d hmem hhash
        · exact absurd hhash.symm hother
      · obtain ⟨hlt, hknown⟩ := hrecalls.known d hd
        refine ⟨?_, fun e he heid => ?_⟩
        · show d.id < base.minted + 1 + draft.texts.length
          omega
        · rcases (mem_committed now hwf).mp he with ⟨hmem, -⟩ | rfl
          · exact hknown e hmem heid
          · have hnew : draft.documentId = d.id := heid
            omega
  | returned result => exact hdone h
  | raised e => exact h
  | _ => cases hidle

end Step

/-! ## Whole runs -/

def Ingestion.docHash (sha256 : String → String) (self : Ingestion δ σ) : String :=
  sha256 self.loaded.content

def Ingestion.Sound (sha256 : String → String) (initial : Corpus δ σ) (sourceUri : String)
    (hashes : List String) (base corpus : Corpus δ σ) (self : Ingestion δ σ) : Prop :=
  self.loaded.sourceUri = sourceUri ∧ self.docHash sha256 ∈ hashes ∧
    self.phase.Sound (self.docHash sha256) self.loaded self.env.now
      (Proceeds sha256 self.env self.loaded self.force initial → Held base sourceUri hashes)
      base corpus

/-- The invariant of runs in which no call has raised: at most one call is writing,
and the base is the corpus without what that one has done. -/
structure Steady (sha256 : String → String) (initial : Corpus δ σ) (sourceUri : String)
    (hashes : List String) (corpus : Corpus δ σ) (calls : List (Ingestion δ σ))
    (base : Corpus δ σ) : Prop where
  wf : base.WF
  aligned : Aligned base sourceUri
  held : base = initial ∨ Held base sourceUri hashes
  writes : (∃ call ∈ calls, Proceeds sha256 call.env call.loaded call.force initial) ∨
    Held initial sourceUri hashes
  distinct : (calls.map (Ingestion.docHash sha256)).Nodup
  alone : calls.Pairwise fun a b => a.phase.writing = true → b.phase.writing = false
  quiet : (∀ call ∈ calls, call.phase.writing = false) → corpus = base
  sound : ∀ call ∈ calls, call.Sound sha256 initial sourceUri hashes base corpus

/-- The call that takes the step looks the source up only while no other is writing. -/
def LooksUpAlone (shared : Shared (Server δ σ) (Ingestion δ σ)) (label : ℕ × Unit) : Prop :=
  ∀ call, shared.parties[label.1]? = some call → call.phase.looksUp = true →
    ∀ other ∈ shared.parties, other.phase.writing = false

instance : DecidableRel (LooksUpAlone (δ := δ) (σ := σ)) := fun shared label =>
  decidable_of_iff
    ((shared.parties[label.1]?.any fun call => call.phase.looksUp) = true →
      ∀ other ∈ shared.parties, other.phase.writing = false)
    (by cases h : shared.parties[label.1]? <;> simp [LooksUpAlone, h])

def IngestPhase.isReturned : IngestPhase δ σ → Bool
  | .returned _ => true
  | _ => false

/-- All calls have returned without an error. -/
def AllReturned (calls : List (Ingestion δ σ)) : Prop :=
  ∀ call ∈ calls, call.phase.isReturned = true

instance (calls : List (Ingestion δ σ)) : Decidable (AllReturned calls) :=
  inferInstanceAs (Decidable (∀ call ∈ calls, call.phase.isReturned = true))

section Run

variable {left right : List (Ingestion δ σ)} {call : Ingestion δ σ} {phase : IngestPhase δ σ}

/-- In a list with one call in front, the relation between writers is symmetric. -/
theorem alone_middle :
    (left ++ call :: right).Pairwise
        (fun a b => a.phase.writing = true → b.phase.writing = false) ↔
      (∀ other ∈ left ++ right, call.phase.writing = true → other.phase.writing = false) ∧
        (left ++ right).Pairwise fun a b => a.phase.writing = true → b.phase.writing = false := by
  have hsymm : ∀ a b : Ingestion δ σ,
      (a.phase.writing = true → b.phase.writing = false) →
        b.phase.writing = true → a.phase.writing = false := by
    intro a b h hb
    cases ha : a.phase.writing with
    | false => rfl
    | true => exact absurd hb (by rw [h ha]; exact Bool.false_ne_true)
  rw [List.perm_middle.pairwise_iff (hsymm _ _), List.pairwise_cons]

theorem mem_middle {other : Ingestion δ σ} :
    other ∈ left ++ call :: right ↔ other = call ∨ other ∈ left ++ right := by
  rw [List.perm_middle.mem_iff, List.mem_cons]

/-- The phase of a call has no part in what it ingests. -/
theorem Steady.moved_distinct (h : Steady sha256 initial sourceUri hashes corpus
    (left ++ call :: right) base) (phase : IngestPhase δ σ) :
    ((left ++ ({ call with phase } : Ingestion δ σ) :: right).map
      (Ingestion.docHash sha256)).Nodup := by
  have hsame := h.distinct
  rw [List.map_append, List.map_cons] at hsame ⊢
  exact hsame

theorem Steady.moved_writes (h : Steady sha256 initial sourceUri hashes corpus
    (left ++ call :: right) base) (phase : IngestPhase δ σ) :
    (∃ other ∈ left ++ ({ call with phase } : Ingestion δ σ) :: right,
      Proceeds sha256 other.env other.loaded other.force initial) ∨
        Held initial sourceUri hashes := by
  refine h.writes.imp_left ?_
  rintro ⟨other, hother, hproceeds⟩
  rcases mem_middle.mp hother with rfl | hother
  · exact ⟨_, mem_moved_self left right _, hproceeds⟩
  · exact ⟨other, mem_middle.mpr (.inr hother), hproceeds⟩

/-- What is committed is the base's, whoever is writing. -/
theorem Steady.database {calls : List (Ingestion δ σ)}
    (h : Steady sha256 initial sourceUri hashes corpus calls base) :
    corpus.database = base.database := by
  by_cases hidle : ∀ call ∈ calls, call.phase.writing = false
  · rw [h.quiet hidle]
  · push Not at hidle
    obtain ⟨writer, hwriter, hwriting⟩ := hidle
    exact (h.sound writer hwriter).2.2.database (Bool.eq_true_of_not_eq_false hwriting)

/-- A statement that is no commit: the base stays. -/
theorem Steady.stays (h : Steady sha256 initial sourceUri hashes corpus
    (left ++ call :: right) base)
    (halone : call.phase.looksUp = true → ∀ other ∈ left ++ call :: right,
      other.phase.writing = false)
    (hafter : phase.Sound (sha256 call.loaded.content) call.loaded call.env.now
      (Proceeds sha256 call.env call.loaded call.force initial → Held base sourceUri hashes)
      base corpus')
    (hfrozen : call.phase.writing = false → corpus' = corpus)
    (hstays : call.phase.writing = true → phase.writing = true)
    (henters : phase.writing = true → call.phase.writing = true ∨ call.phase.looksUp = true) :
    Steady sha256 initial sourceUri hashes corpus' (left ++ { call with phase } :: right) base := by
  obtain ⟨hsource, hhash, -⟩ := h.sound call (mem_moved_self left right call)
  obtain ⟨hwriters, hothers⟩ := alone_middle.mp h.alone
  refine ⟨h.wf, h.aligned, h.held, h.moved_writes phase, h.moved_distinct phase, ?_, ?_, ?_⟩
  · apply alone_middle.mpr
    refine ⟨fun other hother hwriting => ?_, hothers⟩
    rcases henters hwriting with hbefore | hlooks
    · exact hwriters other hother hbefore
    · exact halone hlooks other (mem_middle.mpr (.inr hother))
  · intro hquiet
    have hnow : phase.writing = false := hquiet _ (mem_moved_self left right _)
    have hbefore : call.phase.writing = false := by
      apply Bool.eq_false_of_not_eq_true
      intro hcall
      rw [hstays hcall] at hnow
      cases hnow
    rw [hfrozen hbefore]
    apply h.quiet
    intro other hother
    rcases mem_moved hother with rfl | hother
    · exact hbefore
    · exact hquiet other hother
  · intro other hother
    rcases mem_middle.mp hother with rfl | hother
    · exact ⟨hsource, hhash, hafter⟩
    · obtain ⟨hosource, hohash, hosound⟩ := h.sound other (mem_middle.mpr (.inr hother))
      refine ⟨hosource, hohash, ?_⟩
      cases hwriting : other.phase.writing with
      | false => exact hosound.elsewhere hwriting
      | true =>
          have hbefore : call.phase.writing = false := by
            apply Bool.eq_false_of_not_eq_true
            intro hcall
            rw [hwriters other hother hcall] at hwriting
            cases hwriting
          rw [hfrozen hbefore]
          exact hosound

/-- The commit of the call that is writing: the base is what it has made of the corpus. -/
theorem Steady.commits (h : Steady sha256 initial sourceUri hashes corpus
    (left ++ call :: right) base) (hwriting : call.phase.writing = true) (result : IngestResult)
    (hcommits : Commits (sha256 call.loaded.content) call.loaded call.env.now base corpus') :
    ∃ base', Steady sha256 initial sourceUri hashes corpus'
      (left ++ { call with phase := .returned result } :: right) base' := by
  obtain ⟨hsource, hhash, -⟩ := h.sound call (mem_moved_self left right call)
  obtain ⟨hwriters, hothers⟩ := alone_middle.mp h.alone
  obtain ⟨draft, points, hdocHash, hloaded, htexts, hid, hpoints, hcommitted⟩ := hcommits
  have hidle : ∀ other ∈ left ++ right, other.phase.writing = false :=
    fun other hother => hwriters other hother hwriting
  have hdraftSource : draft.loaded.sourceUri = sourceUri := by rw [hloaded, hsource]
  have hheld : Held (base.committed draft call.env.now points) sourceUri hashes := by
    refine ⟨_, (mem_committed _ h.wf).mpr (.inr rfl), hdraftSource, ?_⟩
    show draft.docHash ∈ hashes
    rw [hdocHash]
    exact hhash
  refine ⟨base.committed draft call.env.now points, committed_wf _ h.wf hid htexts hpoints, ?_,
    .inr hheld, h.moved_writes _, h.moved_distinct _, ?_, ?_, ?_⟩
  · subst hdraftSource
    exact committed_aligned h.wf hid htexts hpoints h.aligned _
  · apply alone_middle.mpr
    exact ⟨fun _ _ hbusy => absurd hbusy Bool.false_ne_true, hothers⟩
  · exact fun _ => hcommitted
  · intro other hother
    rcases mem_middle.mp hother with rfl | hother
    · exact ⟨hsource, hhash, fun _ => hheld⟩
    · obtain ⟨hosource, hohash, hosound⟩ := h.sound other (mem_middle.mpr (.inr hother))
      refine ⟨hosource, hohash, ?_⟩
      apply hosound.committed h.wf hid _ (fun _ _ => hheld) (hidle other hother)
      rw [hdocHash]
      have hnodup := (List.perm_middle.map (Ingestion.docHash sha256)).nodup_iff.mp h.distinct
      rw [List.map_cons, List.nodup_cons] at hnodup
      intro heq
      have hsame : call.docHash sha256 = other.docHash sha256 := heq.symm
      apply hnodup.1
      rw [hsame]
      exact List.mem_map_of_mem hother

variable {server server' : Server δ σ}

/-- The statement of one call, among the others. -/
theorem Steady.advance
    (h : Steady sha256 initial sourceUri hashes server.corpus (left ++ call :: right) base)
    (halone : call.phase.looksUp = true → ∀ other ∈ left ++ call :: right,
      other.phase.writing = false)
    (hadvance : call.advance sha256 server = some (server', phase))
    (hgoes : ∀ e, phase ≠ .raised e) :
    ∃ base', Steady sha256 initial sourceUri hashes server'.corpus
      (left ++ { call with phase } :: right) base' := by
  obtain ⟨-, -, hsound⟩ := h.sound call (mem_moved_self left right call)
  have hskips : ¬ Proceeds sha256 call.env call.loaded call.force base →
      Proceeds sha256 call.env call.loaded call.force initial → Held base sourceUri hashes := by
    intro hstops hproceeds
    rcases h.held with rfl | hheld
    · exact absurd hproceeds hstops
    · exact hheld
  rcases (advance_cases hadvance).sound h.wf h.database (fun hlooks => h.quiet (halone hlooks))
    hskips hgoes hsound with
    ⟨hafter, hfrozen, hstays, henters⟩ | ⟨hwriting, ⟨result, rfl⟩, hcommits⟩
  · exact ⟨base, h.stays halone hafter hfrozen hstays henters⟩
  · exact h.commits hwriting result hcommits

/-- A step after which no call has raised. -/
theorem Steady.step {shared after : Shared (Server δ σ) (Ingestion δ σ)} {label : ℕ × Unit}
    {out : List Empty}
    (h : Steady sha256 initial sourceUri hashes shared.state.corpus shared.parties base)
    (halone : LooksUpAlone shared label)
    (hstep : (concurrentIngestion δ σ sha256).step shared label = some (after, out))
    (hgoes : ∀ call ∈ after.parties, ∀ e, call.phase ≠ .raised e) :
    ∃ base', Steady sha256 initial sourceUri hashes after.state.corpus after.parties base' := by
  obtain ⟨i, ⟨⟩⟩ := label
  obtain ⟨left, call, right, server', call', hparties, hlength, hmove, rfl⟩ :=
    interleaving_step hstep
  obtain ⟨⟨server'', phase⟩, hadvance, hmoved⟩ := Option.map_eq_some_iff.mp hmove
  cases hmoved
  have hlooks : call.phase.looksUp = true →
      ∀ other ∈ left ++ call :: right, other.phase.writing = false := by
    intro hlooks
    rw [← hparties]
    apply halone call _ hlooks
    rw [hparties, ← hlength, List.getElem?_append_right (Nat.le_refl _), Nat.sub_self]
    rfl
  rw [hparties] at h
  exact h.advance hlooks hadvance (hgoes _ (mem_moved_self left right _))

/-- A call that has raised stays raised. -/
theorem raised_step {shared after : Shared (Server δ σ) (Ingestion δ σ)} {label : ℕ × Unit}
    {out : List Empty}
    (hstep : (concurrentIngestion δ σ sha256).step shared label = some (after, out))
    (hraised : ∃ call ∈ shared.parties, ∃ e, call.phase = .raised e) :
    ∃ call ∈ after.parties, ∃ e, call.phase = .raised e := by
  obtain ⟨i, ⟨⟩⟩ := label
  obtain ⟨left, call, right, server', call', hparties, -, hmove, rfl⟩ := interleaving_step hstep
  obtain ⟨other, hother, e, hphase⟩ := hraised
  rw [hparties] at hother
  rcases mem_moved hother with rfl | hother
  · obtain ⟨⟨_, _⟩, hadvance, -⟩ := Option.map_eq_some_iff.mp hmove
    simp only [Ingestion.advance, hphase] at hadvance
    cases hadvance
  · exact ⟨other, hother, e, hphase⟩

/-- When all calls have returned one version is left. -/
theorem Steady.oneVersion {calls : List (Ingestion δ σ)}
    (h : Steady sha256 initial sourceUri hashes corpus calls base) (hreturned : AllReturned calls) :
    OneVersion corpus sourceUri hashes := by
  have hidle : ∀ call ∈ calls, call.phase.writing = false := by
    intro call hcall
    have hphase := hreturned call hcall
    cases hwriting : call.phase with
    | returned result => rfl
    | _ =>
        rw [hwriting] at hphase
        cases hphase
  have hheld : Held base sourceUri hashes := by
    rcases h.writes with ⟨call, hcall, hproceeds⟩ | hinitial
    · have hphase := hreturned call hcall
      have hsound := (h.sound call hcall).2.2
      cases hresult : call.phase with
      | returned result =>
          rw [hresult] at hsound
          exact hsound hproceeds
      | _ =>
          rw [hresult] at hphase
          cases hphase
    · rcases h.held with rfl | hheld
      · exact hinitial
      · exact hheld
  rw [h.quiet hidle]
  exact hheld.oneVersion h.wf h.aligned

end Run

/-- Along every interleaving of two ingestions with different contents under one
source, in which neither looks the source up while the other is between its own lookup
and its commit: once both have returned without an error one version is left.  One of
the two gets past its early exits, or one of the contents is stored there already. -/
theorem concurrent_ingests_leave_one_version (sha256 : String → String)
    (calls : List (IngestCall × Collaborators δ σ)) (corpus : Corpus δ σ)
    (drafts : List (Draft δ σ)) (sourceUri : String) (first second : Ingestion δ σ)
    (labels : List (ℕ × Unit))
    (hreach : (corpusSystem δ σ sha256).run {} calls = some (corpus, drafts))
    (haligned : Aligned corpus sourceUri)
    (hfirst : first.phase = .lookup) (hsecond : second.phase = .lookup)
    (hsources : first.loaded.sourceUri = sourceUri ∧ second.loaded.sourceUri = sourceUri)
    (hcontents : first.docHash sha256 ≠ second.docHash sha256)
    (hwrites : Proceeds sha256 first.env first.loaded first.force corpus ∨
      Proceeds sha256 second.env second.loaded second.force corpus ∨
      Held corpus sourceUri [first.docHash sha256, second.docHash sha256])
    (halone : (concurrentIngestion δ σ sha256).AllSteps LooksUpAlone
      ⟨{ corpus }, [first, second]⟩ labels) :
    (concurrentIngestion δ σ sha256).AllStates
      (fun shared => AllReturned shared.parties →
        OneVersion shared.state.corpus sourceUri [first.docHash sha256, second.docHash sha256])
      ⟨{ corpus }, [first, second]⟩ labels := by
  apply System.AllStates.mono (P := fun shared : Shared (Server δ σ) (Ingestion δ σ) =>
    (∃ call ∈ shared.parties, ∃ e, call.phase = .raised e) ∨
      ∃ base, Steady sha256 corpus sourceUri [first.docHash sha256, second.docHash sha256]
        shared.state.corpus shared.parties base)
  · rintro shared (⟨call, hcall, e, hraised⟩ | ⟨base, hsteady⟩) hreturned
    · have hphase := hreturned call hcall
      rw [hraised] at hphase
      cases hphase
    · exact hsteady.oneVersion hreturned
  · apply System.allStates_of_allSteps _ _ halone
    · rintro shared label after out (hraised | ⟨base, hsteady⟩) hlooks hstep
      · exact .inl (raised_step hstep hraised)
      · by_cases hraised : ∃ call ∈ after.parties, ∃ e, call.phase = .raised e
        · exact .inl hraised
        · right
          apply hsteady.step hlooks hstep
          intro call hcall e hphase
          exact hraised ⟨call, hcall, e, hphase⟩
    · refine .inr ⟨corpus, reachable_wf hreach, haligned, .inl rfl, ?_, ?_, ?_, ?_, ?_⟩
      · simpa [or_assoc] using hwrites
      · simpa using hcontents
      · simp [hfirst, hsecond, IngestPhase.writing]
      · exact fun _ => rfl
      · simp only [List.forall_mem_cons]
        refine ⟨⟨hsources.1, by simp, ?_⟩, ⟨hsources.2, by simp, ?_⟩, by simp⟩
        · rw [hfirst]
          trivial
        · rw [hsecond]
          trivial

/-- A text that is about to be ingested under the source `s`. -/
def ingesting (content : String) : Ingestion ℕ ℕ where
  env := stubCollaborators
  loaded := { content, sourceUri := "s", docType := "text" }

/-- The second call looks the source up by hash while the first one is writing, and by
source after the first one has committed. -/
theorem concurrent_ingests_leave_one_version_in_turn :
    ∃ shared,
      (concurrentIngestion ℕ ℕ id).run ⟨{ corpus := {} }, [ingesting "old", ingesting "new"]⟩
          ([0, 0, 0, 0, 1, 1, 1, 0, 0, 0, 0, 0, 0, 0, 1, 1, 1, 1, 1, 1, 1, 1, 1, 1].map
            fun index => (index, ())) = some (shared, []) ∧
        AllReturned shared.parties ∧
        OneVersion shared.state.corpus "s" ["old", "new"] := by
  have hversions := concurrent_ingests_leave_one_version id [] {} [] "s"
    (ingesting "old") (ingesting "new")
    ([0, 0, 0, 0, 1, 1, 1, 0, 0, 0, 0, 0, 0, 0, 1, 1, 1, 1, 1, 1, 1, 1, 1, 1].map
      fun index => (index, ()))
    rfl
    ⟨fun p hp => absurd hp List.not_mem_nil, fun d hd => absurd hd List.not_mem_nil⟩
    rfl rfl ⟨rfl, rfl⟩ (by decide)
    (.inl ⟨.inr fun d hd => absurd hd List.not_mem_nil, by decide⟩)
    (by decide +kernel)
  refine ⟨_, rfl, by decide +kernel, ?_⟩
  exact (hversions.last rfl) (by decide +kernel)

/-- Both calls look the source up before either one commits. -/
theorem concurrent_ingests_leave_two_versions :
    ¬ ∀ (sha256 : String → String) (sourceUri : String) (first second : Ingestion ℕ ℕ)
      (labels : List (ℕ × Unit)) (shared : Shared (Server ℕ ℕ) (Ingestion ℕ ℕ)),
      first.phase = .lookup → second.phase = .lookup →
      first.loaded.sourceUri = sourceUri → second.loaded.sourceUri = sourceUri →
      first.docHash sha256 ≠ second.docHash sha256 →
      (concurrentIngestion ℕ ℕ sha256).run ⟨{ corpus := {} }, [first, second]⟩ labels =
        some (shared, []) →
      AllReturned shared.parties →
      OneVersion shared.state.corpus sourceUri
        [first.docHash sha256, second.docHash sha256] := by
  intro h
  obtain ⟨d, hone, -⟩ := h id "s" (ingesting "old") (ingesting "new")
    ((List.replicate 4 0 ++ List.replicate 4 1 ++ List.replicate 7 0 ++ List.replicate 7 1).map
      fun index => (index, ()))
    _ rfl rfl rfl rfl (by decide) rfl (by
      intro call hcall
      rcases List.mem_cons.mp hcall with rfl | hcall
      · rfl
      · rw [List.mem_singleton.mp hcall]
        rfl)
  have htwo : List.length _ = 1 := congrArg List.length hone
  revert htwo
  decide +kernel

end Lour.Rag
