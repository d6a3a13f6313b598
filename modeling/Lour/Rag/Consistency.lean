import Lour.Rag.Wellformed
/-!
# The two stores in step

As long as no collaborator call raises, chunk rows and points pair off in order:
a replacement takes the rows of the doomed documents out of the one store and
exactly their points out of the other.
-/

namespace Lour.Rag

open Lour.Lib Lour.Lib.Python

variable {δ σ : Type}

/-- The draft holds what the call loads, the texts it is split into, and what the embedders
of the call return for these texts. -/
structure Draft.Of (draft : Draft δ σ) (call : IngestCall × Collaborators δ σ) : Prop where
  loaded : call.1.load call.2 = .ok draft.loaded
  texts : call.2.chunkTexts draft.loaded = .ok draft.texts
  dense : draft.dense = call.2.embedDense draft.texts
  sparse : draft.sparse = call.2.embedSparse draft.texts

/-- The point is the chunk row's: same id and payload, and the vectors that the draft the row
comes from has for its text. -/
def Drafted (drafts : List (Draft δ σ)) (chunk : Chunk) (point : Point δ σ) : Prop :=
  point.id = chunk.pointId ∧ point.payload.documentId = chunk.documentId ∧
    point.payload.chunkIndex = chunk.chunkIndex ∧ point.payload.content = chunk.content ∧
    ∃ draft ∈ drafts, draft.documentId = chunk.documentId ∧
      draft.texts[chunk.chunkIndex]? = some chunk.content ∧
      draft.dense[chunk.chunkIndex]? = some point.dense ∧
      draft.sparse[chunk.chunkIndex]? = some point.sparse

/-- The point is the chunk row's: same id and payload, and the vectors that the embedders
return for the row's text, among the texts of its document, in the call that wrote it. -/
def OwnPoint (calls : List (IngestCall × Collaborators δ σ)) (drafts : List (Draft δ σ))
    (chunk : Chunk) (point : Point δ σ) : Prop :=
  point.id = chunk.pointId ∧ point.payload.documentId = chunk.documentId ∧
    point.payload.chunkIndex = chunk.chunkIndex ∧ point.payload.content = chunk.content ∧
    ∃ draft ∈ drafts, ∃ call ∈ calls, draft.Of call ∧ draft.documentId = chunk.documentId ∧
      draft.texts[chunk.chunkIndex]? = some chunk.content ∧
      (call.2.embedDense draft.texts)[chunk.chunkIndex]? = some point.dense ∧
      (call.2.embedSparse draft.texts)[chunk.chunkIndex]? = some point.sparse

structure InStep (corpus : Corpus δ σ) (calls : List (IngestCall × Collaborators δ σ))
    (drafts : List (Draft δ σ)) : Prop where
  hash_unique : (corpus.database.documents.map Document.docHash).Nodup
  one_per_source : (corpus.database.documents.map Document.sourceUri).Nodup
  indices : ∀ d ∈ corpus.database.documents, ∃ n, 1 ≤ n ∧
    (corpus.database.chunks.filter fun c => c.documentId == d.id).map Chunk.chunkIndex =
      List.range n
  same_ids : ∀ id, (∃ p ∈ corpus.points, p.id = id) ↔
    ∃ c ∈ corpus.database.chunks, c.pointId = id
  own_row : ∀ p ∈ corpus.points, ∀ c ∈ corpus.database.chunks, c.pointId = p.id →
    OwnPoint calls drafts c p

theorem prepare_of {call : IngestCall × Collaborators δ σ} {docHash : String}
    {loaded : LoadedDocument} {documentId : ℕ} {draft : Draft δ σ}
    (hloaded : call.1.load call.2 = .ok loaded)
    (hprepared : call.2.prepare docHash loaded documentId = .ok (some draft)) :
    draft.Of call := by
  simp only [Collaborators.prepare, bind_eq_ok] at hprepared
  obtain ⟨texts, htexts, hprepared⟩ := hprepared
  split at hprepared
  next => cases hprepared
  next =>
      simp only [bind_eq_ok] at hprepared
      obtain ⟨-, -, -, -, hdraft⟩ := hprepared
      cases hdraft
      exact ⟨hloaded, htexts, rfl, rfl⟩

theorem Drafted.mono {drafts drafts' : List (Draft δ σ)} {c : Chunk} {p : Point δ σ}
    (h : Drafted drafts c p) (hsub : ∀ d ∈ drafts, d ∈ drafts') : Drafted drafts' c p := by
  obtain ⟨hid, hdocument, hindex, hcontent, draft, hdraft, hvectors⟩ := h
  exact ⟨hid, hdocument, hindex, hcontent, draft, hsub draft hdraft, hvectors⟩

theorem Drafted.ownPoint {calls : List (IngestCall × Collaborators δ σ)}
    {drafts : List (Draft δ σ)} {c : Chunk} {p : Point δ σ} (h : Drafted drafts c p)
    (hof : ∀ draft ∈ drafts, ∃ call ∈ calls, draft.Of call) : OwnPoint calls drafts c p := by
  obtain ⟨hid, hdocument, hindex, hcontent, draft, hdraft, hsame, htext, hdense, hsparse⟩ := h
  obtain ⟨call, hcall, hdraftOf⟩ := hof draft hdraft
  rw [hdraftOf.dense] at hdense
  rw [hdraftOf.sparse] at hsparse
  exact ⟨hid, hdocument, hindex, hcontent, draft, hdraft, call, hcall, hdraftOf, hsame, htext,
    hdense, hsparse⟩

theorem forall₂_filter {α β : Type} {R : α → β → Prop} {p : α → Bool} {q : β → Bool}
    {xs : List α} {ys : List β} (h : List.Forall₂ R xs ys) (hpq : ∀ x y, R x y → p x = q y) :
    List.Forall₂ R (xs.filter p) (ys.filter q) := by
  induction h with
  | nil => exact .nil
  | cons hxy _ ih =>
      rw [List.filter_cons, List.filter_cons, hpq _ _ hxy]
      split
      · exact .cons hxy ih
      · exact ih

theorem draft_drafted {draft : Draft δ σ} {drafts : List (Draft δ σ)} {points : List (Point δ σ)}
    (hdraft : draft ∈ drafts) (hpoints : List.Forall₂ draft.Indexes draft.chunks points) :
    List.Forall₂ (Drafted drafts) draft.chunks points := by
  have hall : List.Forall₂ (fun c p => c ∈ draft.chunks ∧ draft.Indexes c p) draft.chunks points :=
    (List.forall₂_and_left _ _).mpr ⟨fun _ hc => hc, hpoints⟩
  apply hall.imp
  intro c p
  rintro ⟨hc, dense, sparse, hdense, hsparse, rfl⟩
  obtain ⟨hdocument, -, -, htext⟩ := draft_chunk_mem hc
  exact ⟨rfl, hdocument.symm, rfl, rfl, draft, hdraft, hdocument.symm, htext, hdense, hsparse⟩

/-- A committed replacement pairs off what it leaves and what it writes. -/
theorem replaced_drafted {corpus : Corpus δ σ} (h : corpus.WF) {draft : Draft δ σ}
    {drafts : List (Draft δ σ)} {points : List (Point δ σ)} (createdAt : Rat)
    (hold : List.Forall₂ (Drafted drafts) corpus.database.chunks corpus.points)
    (hpoints : List.Forall₂ draft.Indexes draft.chunks points) :
    List.Forall₂ (Drafted (drafts ++ [draft])) (corpus.database.replaced draft createdAt).chunks
      (corpus.kept draft ++ points) := by
  have hmem : List.Forall₂ (fun c p => c ∈ corpus.database.chunks ∧
      Drafted (drafts ++ [draft]) c p) corpus.database.chunks corpus.points :=
    (List.forall₂_and_left _ _).mpr
      ⟨fun _ hc => hc, hold.imp fun _ _ hown => hown.mono fun _ => List.mem_append_left _⟩
  have hkept : List.Forall₂ (fun c p => c ∈ corpus.database.chunks ∧
      Drafted (drafts ++ [draft]) c p)
      (corpus.database.without (corpus.database.doomed draft.docHash
        draft.loaded.sourceUri)).chunks (corpus.kept draft) := by
    apply forall₂_filter hmem
    intro c p hcp
    obtain ⟨hc, hid, -⟩ := hcp
    rw [decide_eq_decide, not_iff_not, hid, Database.mem_pointsOf]
    constructor
    · exact fun hdoomed => ⟨c, hc, hdoomed, rfl⟩
    · rintro ⟨c', hc', hdoomed, hsame⟩
      rcases List.inj_on_of_nodup_map h.rows hc' hc hsame with rfl
      exact hdoomed
  refine List.rel_append (hkept.imp fun _ _ hcp => hcp.2) (draft_drafted ?_ hpoints)
  exact List.mem_append_right _ (List.mem_singleton_self _)

/-- One call whose collaborators do not raise. -/
theorem step_drafted {sha256 : String → String} {corpus after : Corpus δ σ}
    {drafts new : List (Draft δ σ)} {call : IngestCall × Collaborators δ σ} (h : corpus.WF)
    (hold : List.Forall₂ (Drafted drafts) corpus.database.chunks corpus.points)
    (hfaultless : ∀ site, call.2.raises site = false)
    (hstep : (corpusSystem δ σ sha256).step corpus call = some (after, new)) :
    List.Forall₂ (Drafted (drafts ++ new)) after.database.chunks after.points := by
  have hmono : ∀ new, List.Forall₂ (Drafted (drafts ++ new)) corpus.database.chunks
      corpus.points := fun new => hold.imp fun _ _ hown =>
        hown.mono fun _ => List.mem_append_left _
  rcases corpusSystem_cases h hstep with ⟨rfl, rfl⟩ | ⟨loaded, r, -, hingested⟩
  · exact hmono []
  · cases hingested with
    | failed e hupsert hcommit => exact hmono []
    | skipped result hstops => exact hmono []
    | wrote r after hproceeds hwritten =>
        cases hwritten with
        | rolledBack e hupsert hcommit => exact hmono _
        | halfway hraises =>
            rw [hfaultless] at hraises
            cases hraises
        | uncommitted hraises points hpoints =>
            rw [hfaultless] at hraises
            cases hraises
        | committed result points hpoints => exact replaced_drafted h _ hold hpoints

theorem run_drafted {sha256 : String → String} {corpus : Corpus δ σ} {drafts : List (Draft δ σ)}
    {calls : List (IngestCall × Collaborators δ σ)}
    (hfaultless : ∀ call ∈ calls, ∀ site, call.2.raises site = false)
    (hrun : (corpusSystem δ σ sha256).run {} calls = some (corpus, drafts)) :
    List.Forall₂ (Drafted drafts) corpus.database.chunks corpus.points := by
  have hinvariant := System.run_induction (P := fun corpus drafts => corpus.WF ∧
      List.Forall₂ (Drafted drafts) corpus.database.chunks corpus.points)
    (fun corpus drafts call after new hcall ⟨hwf, hold⟩ hstep =>
      ⟨step_wf call new hwf hstep, step_drafted hwf hold (hfaultless call hcall) hstep⟩)
    (show _ ∧ List.Forall₂ (Drafted []) _ _ from ⟨empty_wf, .nil⟩) hrun
  exact hinvariant.2

theorem drafted_ids {drafts : List (Draft δ σ)} {chunks : List Chunk} {points : List (Point δ σ)}
    (h : List.Forall₂ (Drafted drafts) chunks points) :
    points.map Point.id = chunks.map Chunk.pointId := by
  induction h with
  | nil => rfl
  | cons hown _ ih => rw [List.map_cons, List.map_cons, ih, hown.1]

theorem drafted_sameIds {drafts : List (Draft δ σ)} {chunks : List Chunk}
    {points : List (Point δ σ)} (h : List.Forall₂ (Drafted drafts) chunks points) (id : ℕ) :
    (∃ p ∈ points, p.id = id) ↔ ∃ c ∈ chunks, c.pointId = id := by
  rw [← List.mem_map, ← List.mem_map, drafted_ids h]

/-- What a call writes it has made itself. -/
theorem perform_of {sha256 : String → String} {call : IngestCall × Collaborators δ σ}
    {corpus : Corpus δ σ} : ∀ draft ∈ (perform sha256 call.2 call.1 corpus).2.2, draft.Of call := by
  intro draft hdraft
  unfold perform at hdraft
  split at hdraft
  next => cases hdraft
  next loaded hloaded =>
      unfold ingest at hdraft
      simp only at hdraft
      split at hdraft
      next => cases hdraft
      next => cases hdraft
      next =>
          split at hdraft
          next => cases hdraft
          next => cases hdraft
          next prepared hprepared =>
              rw [List.mem_singleton.mp hdraft]
              exact prepare_of hloaded hprepared

theorem run_of {sha256 : String → String} {corpus : Corpus δ σ} {drafts : List (Draft δ σ)}
    {calls : List (IngestCall × Collaborators δ σ)}
    (hrun : (corpusSystem δ σ sha256).run {} calls = some (corpus, drafts)) :
    ∀ draft ∈ drafts, ∃ call ∈ calls, draft.Of call := by
  apply System.run_induction (P := fun _ drafts => ∀ draft ∈ drafts, ∃ call ∈ calls, draft.Of call)
    _ (List.forall_mem_nil _) hrun
  intro corpus drafts call after new hcall hof hstep
  cases hstep
  intro draft hdraft
  rcases List.mem_append.mp hdraft with hold | hnew
  · exact hof draft hold
  · exact ⟨call, hcall, perform_of draft hnew⟩

theorem forall₂_partner {α β : Type} {R : α → β → Prop} {xs : List α} {ys : List β}
    (h : List.Forall₂ R xs ys) {y : β} (hy : y ∈ ys) : ∃ x ∈ xs, R x y := by
  induction h with
  | nil => cases hy
  | cons hxy _ ih =>
      rcases List.mem_cons.mp hy with rfl | hy
      · exact ⟨_, List.mem_cons_self .., hxy⟩
      · obtain ⟨x, hx, hR⟩ := ih hy
        exact ⟨x, List.mem_cons_of_mem _ hx, hR⟩

/-- Over any sequence of calls in which no collaborator fails, Postgres and Qdrant
stay in step. -/
theorem ingestion_keeps_in_step (sha256 : String → String)
    (calls : List (IngestCall × Collaborators δ σ)) (corpus : Corpus δ σ)
    (drafts : List (Draft δ σ))
    (hfaultless : ∀ call ∈ calls, ∀ site, call.2.raises site = false)
    (hrun : (corpusSystem δ σ sha256).run {} calls = some (corpus, drafts)) :
    InStep corpus calls drafts := by
  have hwf := reachable_wf hrun
  have hown := run_drafted hfaultless hrun
  refine ⟨hwf.hashes, hwf.sources, hwf.indices, drafted_sameIds hown, fun p hp c hc hid => ?_⟩
  obtain ⟨c', hc', hpc⟩ := forall₂_partner hown hp
  have hsame : c' = c := List.inj_on_of_nodup_map hwf.rows hc' hc (hpc.1.symm.trans hid.symm)
  exact (hsame ▸ hpc).ownPoint (run_of hrun)

/-- The digests of the two contents the runs below ingest. -/
def stubSha256 (content : String) : String :=
  if content = "old" then "cba06b5736faf67e54b07b561eae94395e774c517a7d910a54369e1263ccfbd4"
  else "11507a0e2f5e69d5dfa40a62a1bd7b6ee57e6bcd85c67c9b8431b36fff21c437"

/-- Every text is one chunk, and its vectors are its length. -/
def stubCollaborators (raises : Site → Bool := fun _ => false) : Collaborators ℕ ℕ where
  split content := [content]
  embedDense texts := texts.map String.length
  embedSparse texts := texts.map String.length
  raises := raises

def ingestText (content sourceUri : String) : IngestCall :=
  .text content sourceUri none "text" none false

theorem ingestion_keeps_in_step_changed_source :
    ∃ corpus drafts, (corpusSystem ℕ ℕ stubSha256).run {}
        [(ingestText "old" "s", stubCollaborators), (ingestText "new" "s", stubCollaborators)] =
          some (corpus, drafts) ∧
      corpus.points.map Point.id = [3] ∧
      InStep corpus
        [(ingestText "old" "s", stubCollaborators), (ingestText "new" "s", stubCollaborators)]
        drafts := by
  refine ⟨_, _, rfl, rfl, ?_⟩
  refine ingestion_keeps_in_step stubSha256
    [(ingestText "old" "s", stubCollaborators), (ingestText "new" "s", stubCollaborators)]
    _ _ (fun call hcall site => ?_) rfl
  rcases List.mem_cons.mp hcall with rfl | hcall
  · rfl
  · rw [List.mem_singleton.mp hcall]
    rfl

end Lour.Rag
